import Mathlib.Data.List.Nodup
import PermissionGraph.Proofs.Store.Coherence

/-!
# PermissionGraph.Proofs.Store.Lifetimes

How long an entity lives. An identifier is handed out once, so an entity that is gone can only come
back out of the snapshot of a transaction that was open before it went. No such transaction can
commit: what could still be published has no entity that the committed snapshot lacks
(`Session.Settled`), for every identifier that was ever committed.

* `nodup_handedOut`: no identifier is handed out twice.
* `Settled.step`: what is missing from the committed snapshot stays missing.
* `Settled.ended`: giving a transaction up settles what was created in it.
* `lifetimes_run`: all of it, for every session.
-/

namespace PermissionGraph

open Std Snapshot

/-- The identifier that an answer hands out. -/
def Response.created? : Response → Option EntityId
  | .written (.ok (.created id)) => some id
  | _ => none

/-- Whether an answer tells of a commit that went through. -/
def Response.isCommitted : Response → Bool
  | .committed (.ok _) => true
  | _ => false

/-- Whether a request ends the transaction that is open under a name. -/
def Request.ends (name : String) : Request → Bool
  | .begin other | .commit other | .rollback other => other = name
  | .write .. | .question .. => false

theorem Request.name_eq_of_ends {name : String} {r : Request} (h : r.ends name = true) :
    r.name = name := by
  cases r with
  | begin | commit | rollback => exact of_decide_eq_true h
  | write | question => cases h

namespace Snapshot

variable {s : Snapshot} {id : EntityId}

theorem contains_eq_false_iff : s.contains id = false ↔ s.entity? id = none := by
  rw [contains, entity?, ExtTreeMap.contains_eq_isSome_getElem?, Option.isSome_eq_false_iff,
    Option.isNone_iff_eq_none]

theorem ne_of_entity?_eq_none {x : EntityId} (h : s.entity? id = none)
    (hx : ∃ shape, s.shape? x = some shape) : x ≠ id := by
  rintro rfl
  obtain ⟨shape, hshape⟩ := hx
  rw [shape?_of_entity?_eq_none h] at hshape
  cases hshape

end Snapshot

theorem Transaction.lacks_take {t : Transaction} {fresh : Option EntityId} {id : EntityId}
    {edit : Option Edit} (hedit : Plan.Settles (.ok edit) (t.current.EditsTo fresh))
    (hid : fresh ≠ some id) (hlacks : t.current.entity? id = none) :
    (t.take edit).current.entity? id = none := by
  cases edit with
  | none => exact hlacks
  | some edit =>
    rw [take, current_write]
    by_contra hsome
    obtain ⟨e, he⟩ := Option.ne_none_iff_exists'.mp hsome
    rcases (hedit edit rfl).1.born id e he with ⟨e', he'⟩ | hborn
    · rw [hlacks] at he'
      cases he'
    · exact hid hborn

namespace Write

variable {st : State} {w : Write} {id : EntityId} {outcome : Except WriteError Written × State}

theorem created_ran (hr : Ran st w outcome) (h : outcome.1 = .ok (.created id)) :
    id = st.db.freshId ∧ outcome.2.db = st.db.takeId := by
  cases hr with
  | refused => cases h
  | done =>
    injection h with h
    obtain ⟨hwritten, hid⟩ := created_written (congrArg Written.created? h)
    exact ⟨hid, by rw [hwritten]; rfl⟩

theorem lacks_ran (h : st.transaction.Fits st.db)
    (hbelow : st.transaction.current.Below st.db.nextId) (hr : Ran st w outcome)
    (hid : id.number < st.db.nextId) (hlacks : st.transaction.current.entity? id = none) :
    outcome.2.transaction.current.entity? id = none := by
  rw [← current_asked st w] at hlacks
  cases hr with
  | refused => exact hlacks
  | done hplan =>
    refine Transaction.lacks_take (settles_of_plan h hbelow hplan) (fun hcreated => ?_) hlacks
    obtain ⟨_, rfl⟩ := created_written hcreated
    exact Nat.lt_irrefl _ hid

end Write

namespace Session

variable {s : Session} {settings : Settings} {name : String} {t : Transaction} {id : EntityId}
  {except : Option String}

/-- The answers to requests, in their order. -/
def responses (s : Session) : List Request → List Response
  | [] => []
  | r :: rest => (s.step r).1 :: (s.step r).2.responses rest

/-- The identifiers that are handed out on requests, whatever becomes of the transactions. -/
def handedOut (s : Session) (requests : List Request) : List EntityId :=
  (s.responses requests).filterMap Response.created?

/-- Whether the transaction that is open under a name is committed in the course of requests: the
first of them that ends it is a commit, and it goes through. -/
def publishes (s : Session) (name : String) : List Request → Bool
  | [] => false
  | r :: rest =>
    if r.ends name then (s.step r).1.isCommitted else (s.step r).2.publishes name rest

/-! ## Identifiers -/

theorem nextId_step (hs : s.Sound settings) (r : Request) :
    s.db.nextId ≤ (s.step r).2.db.nextId := by
  have hstep := s.stepped_step r
  generalize s.step r = outcome at hstep ⊢
  cases hstep with
  | closed | begun | rolledBack | answered => exact Nat.le_refl _
  | committed => exact (Database.nextId_commit s.db _).ge
  | @written name t w ht =>
    obtain ⟨n, hn, hdb⟩ := Write.db_ran (Write.ran_run ⟨s.db, t⟩ (hs.fits ht).1.sound.current w)
    show s.db.nextId ≤ (w.run ⟨s.db, t⟩).2.db.nextId
    rw [hdb]
    exact hn

theorem nextId_run (hs : s.Sound settings) (requests : List Request) :
    s.db.nextId ≤ (s.run requests).db.nextId := by
  induction requests generalizing s with
  | nil => exact Nat.le_refl _
  | cons r rest ih => exact Nat.le_trans (nextId_step hs r) (ih (sound_step hs r))

theorem created_step (hs : s.Sound settings) {r : Request}
    (h : (s.step r).1.created? = some id) :
    id = s.db.freshId ∧ (s.step r).2.db.nextId = s.db.nextId + 1 := by
  have hstep := s.stepped_step r
  generalize s.step r = outcome at h hstep ⊢
  cases hstep with
  | closed | begun | committed | rolledBack | answered => cases h
  | @written name t w ht =>
    have hcreated : (w.run ⟨s.db, t⟩).1 = .ok (.created id) := by
      simp only [Response.created?] at h
      split at h
      · next heq =>
        injection heq with heq
        injection h with h
        rw [heq, h]
      · cases h
    obtain ⟨hid, hdb⟩ :=
      Write.created_ran (Write.ran_run ⟨s.db, t⟩ (hs.fits ht).1.sound.current w) hcreated
    refine ⟨hid, ?_⟩
    show (w.run ⟨s.db, t⟩).2.db.nextId = _
    rw [hdb]
    rfl

theorem le_of_mem_handedOut (hs : s.Sound settings) {requests : List Request}
    (h : id ∈ s.handedOut requests) : s.db.nextId ≤ id.number := by
  obtain ⟨response, hmem, hcreated⟩ := List.mem_filterMap.mp h
  clear h
  induction requests generalizing s with
  | nil => cases hmem
  | cons r rest ih =>
    rcases List.mem_cons.mp hmem with rfl | hmem
    · exact (congrArg EntityId.number (created_step hs hcreated).1).ge
    · exact Nat.le_trans (nextId_step hs r) (ih (sound_step hs r) hmem)

/-- Every identifier is handed out once: what comes later has a larger number. -/
theorem nodup_handedOut (hs : s.Sound settings) (requests : List Request) :
    (s.handedOut requests).Nodup := by
  induction requests generalizing s with
  | nil => exact List.nodup_nil
  | cons r rest ih =>
    show (List.filterMap Response.created? ((s.step r).1 :: _)).Nodup
    cases hcreated : (s.step r).1.created? with
    | none =>
      rw [List.filterMap_cons_none hcreated]
      exact ih (sound_step hs r)
    | some id =>
      rw [List.filterMap_cons_some hcreated, List.nodup_cons]
      refine ⟨fun hmem => ?_, ih (sound_step hs r)⟩
      obtain ⟨rfl, hnext⟩ := created_step hs hcreated
      have hle := le_of_mem_handedOut (sound_step hs r) hmem
      rw [hnext] at hle
      exact absurd hle (Nat.not_succ_le_self _)

/-! ## What is gone -/

/-- An open transaction that could still be committed does not have the entity, unless the committed
snapshot has it. The transaction under the excepted name is left out. As the identifier has been
handed out, no transaction can come to have the entity. -/
structure Settled (s : Session) (id : EntityId) (except : Option String) : Prop where
  taken : id.number < s.db.nextId
  lacks : ∀ {name : String} {t : Transaction}, s.transaction? name = some t →
    except ≠ some name → t.base.version = s.db.version →
    s.db.committed.entity? id = none → t.current.entity? id = none

theorem Sound.settled (hs : s.Sound settings) (h : s.db.committed.entity? id ≠ none) :
    s.Settled id none := by
  obtain ⟨e, he⟩ := Option.ne_none_iff_exists'.mp h
  exact ⟨hs.below id e he, fun _ _ _ hnone => absurd hnone h⟩

theorem Settled.insert {n : Nat} {except' : Option String} (h : s.Settled id except)
    (hn : s.db.nextId ≤ n) (hexcept : ∀ other, name ≠ other → except = some other →
      except' = some other)
    (ht : except' ≠ some name → t.base.version = s.db.version →
      s.db.committed.entity? id = none → t.current.entity? id = none) :
    ({ db := { s.db with nextId := n }, transactions := s.transactions.insert name t } :
      Session).Settled id except' where
  taken := Nat.lt_of_lt_of_le h.taken hn
  lacks {other found} hfound hother hversion hnone := by
    rcases transaction?_insert hfound with ⟨rfl, rfl⟩ | ⟨hne, hfound⟩
    · exact ht hother hversion hnone
    · exact h.lacks hfound (fun he => hother (hexcept other hne he)) hversion hnone

theorem Settled.erase {except' : Option String} (h : s.Settled id except)
    (hexcept : ∀ other, name ≠ other → except = some other → except' = some other) :
    ({ s with transactions := s.transactions.erase name } : Session).Settled id except' where
  taken := h.taken
  lacks {other found} hfound hother hversion hnone := by
    obtain ⟨hne, hfound⟩ := transaction?_erase hfound
    exact h.lacks hfound (fun he => hother (hexcept other hne he)) hversion hnone

/-- A commit leaves a settled identifier settled. If it goes through, the transactions that are
still open began with earlier versions. -/
theorem Settled.commit (hs : s.Sound settings) (h : s.Settled id except)
    (ht : s.transaction? name = some t) (hname : except ≠ some name) :
    ({ db := (s.db.commit t).2, transactions := s.transactions.erase name } :
        Session).Settled id except ∧
      (s.db.committed.entity? id = none → (s.db.commit t).2.committed.entity? id = none) := by
  have herase : ({ s with transactions := s.transactions.erase name } : Session).Settled id
      except :=
    h.erase fun _ _ he => he
  rcases Database.commit_cases s.db t with ⟨_, hc⟩ | ⟨_, hversion, hc⟩ | ⟨_, _, hc⟩
  · rw [hc]
    exact ⟨⟨herase.taken, herase.lacks⟩, fun hnone => hnone⟩
  · rw [hc]
    refine ⟨⟨h.taken, fun hfound _ hlater => ?_⟩, fun hnone => ?_⟩
    · have hle := (hs.fits (transaction?_erase hfound).2).1.le
      have hlater : _ = t.base.version + 1 := hlater
      omega
    · exact h.lacks ht hname hversion.symm hnone
  · rw [hc]
    exact ⟨herase, fun hnone => hnone⟩

/-- A request that does not end the excepted transaction leaves a settled identifier settled, and
does not bring the entity into the committed snapshot. -/
theorem Settled.step (hs : s.Sound settings) (h : s.Settled id except) {r : Request}
    (hr : ∀ name, except = some name → r.ends name = false) :
    (s.step r).2.Settled id except ∧
      (s.db.committed.entity? id = none → (s.step r).2.db.committed.entity? id = none) := by
  have hstep := s.stepped_step r
  generalize s.step r = outcome at hstep ⊢
  cases hstep with
  | closed => exact ⟨h, fun hnone => hnone⟩
  | begun name =>
    exact ⟨h.insert (Nat.le_refl _) (fun _ _ he => he) fun _ _ hnone => hnone, fun hnone => hnone⟩
  | @committed name t ht =>
    refine h.commit hs ht fun he => ?_
    simpa [Request.ends] using hr name he
  | rolledBack => exact ⟨h.erase fun _ _ he => he, fun hnone => hnone⟩
  | @written name t w ht =>
    obtain ⟨hfits, hbelow⟩ := hs.fits ht
    have hran := Write.ran_run ⟨s.db, t⟩ hfits.sound.current w
    obtain ⟨n, hn, hdb⟩ := Write.db_ran hran
    have hlacks : except ≠ some name →
        (w.run ⟨s.db, t⟩).2.transaction.base.version = s.db.version →
        s.db.committed.entity? id = none →
        (w.run ⟨s.db, t⟩).2.transaction.current.entity? id = none := by
      intro hname hversion hnone
      rw [Write.base_ran hran] at hversion
      exact Write.lacks_ran hfits hbelow hran h.taken (h.lacks ht hname hversion hnone)
    have hinsert := h.insert hn (fun _ _ he => he) hlacks
    rw [← hdb] at hinsert
    refine ⟨hinsert, fun hnone => ?_⟩
    show (w.run ⟨s.db, t⟩).2.db.committed.entity? id = none
    rw [hdb]
    exact hnone
  | @answered name t q ht =>
    have hlacks : except ≠ some name → (t.ask s.db q.run).2.base.version = s.db.version →
        s.db.committed.entity? id = none → (t.ask s.db q.run).2.current.entity? id = none :=
      h.lacks (t := t) ht
    exact ⟨h.insert (Nat.le_refl _) (fun _ _ he => he) hlacks, fun hnone => hnone⟩

/-- When the excepted transaction ends without having been committed, nothing is left to except. -/
theorem Settled.ended (h : s.Settled id (some name)) {r : Request} (hr : r.ends name = true)
    (hfailed : (s.step r).1.isCommitted = false) :
    (s.step r).2.Settled id none ∧ (s.step r).2.db.committed = s.db.committed := by
  obtain rfl := Request.name_eq_of_ends hr
  have hexcept : ∀ other, r.name ≠ other → some r.name = some other → none = some other :=
    fun other hne he => absurd (Option.some_inj.mp he) hne
  have hstep := s.stepped_step r
  generalize s.step r = outcome at hfailed hstep ⊢
  cases hstep with
  | closed ht =>
    refine ⟨⟨h.taken, fun hfound _ => h.lacks hfound fun he => ?_⟩, rfl⟩
    rw [← Option.some_inj.mp he, ht] at hfound
    cases hfound
  | begun => exact ⟨h.insert (Nat.le_refl _) hexcept fun _ _ hnone => hnone, rfl⟩
  | @committed name t ht =>
    rcases Database.commit_cases s.db t with ⟨_, hc⟩ | ⟨_, _, hc⟩ | ⟨_, _, hc⟩
    · simp [hc, Response.isCommitted] at hfailed
    · simp [hc, Response.isCommitted] at hfailed
    · rw [hc]
      exact ⟨h.erase hexcept, rfl⟩
  | rolledBack => exact ⟨h.erase hexcept, rfl⟩
  | written => cases hr
  | answered => cases hr

theorem Settled.run (hs : s.Sound settings) (h : s.Settled id none) (requests : List Request) :
    (s.run requests).Settled id none ∧
      (s.db.committed.entity? id = none → (s.run requests).db.committed.entity? id = none) := by
  induction requests generalizing s with
  | nil => exact ⟨h, fun hnone => hnone⟩
  | cons r rest ih =>
    obtain ⟨hsettled, hstep⟩ := h.step hs (r := r) fun _ he => by cases he
    obtain ⟨hrun, hrest⟩ := ih (sound_step hs r) hsettled
    exact ⟨hrun, fun hnone => hrest (hstep hnone)⟩

theorem Settled.run_of_unpublished (hs : s.Sound settings) (h : s.Settled id (some name))
    (hnone : s.db.committed.entity? id = none) {requests late : List Request}
    (hpublishes : s.publishes name (requests ++ late) = false) :
    (s.run requests).db.committed.entity? id = none := by
  induction requests generalizing s with
  | nil => exact hnone
  | cons r rest ih =>
    rw [List.cons_append, publishes] at hpublishes
    by_cases hr : r.ends name = true
    · rw [if_pos hr] at hpublishes
      obtain ⟨hsettled, hcommitted⟩ := h.ended hr hpublishes
      exact (hsettled.run (sound_step hs r) rest).2 (hcommitted ▸ hnone)
    · rw [if_neg hr] at hpublishes
      have hstep := h.step hs (r := r) fun other he => by
        rw [← Option.some_inj.mp he]
        simpa using hr
      exact ih (sound_step hs r) hstep.1 (hstep.2 hnone) hpublishes

theorem lacks_of_created {requests rest : List Request} {w : Write}
    (h : (((new settings).run (requests ++ rest)).step (.write name w)).1.created? = some id) :
    ((new settings).run requests).db.committed.entity? id = none := by
  have hsound := sound_run (sound_new settings) requests
  have hid := (created_step (sound_run (sound_new settings) (requests ++ rest)) h).1
  have hle := nextId_run hsound rest
  rw [← run_append] at hle
  by_contra hsome
  obtain ⟨e, he⟩ := Option.ne_none_iff_exists'.mp hsome
  have hlt := hsound.below id e he
  rw [hid] at hlt
  exact absurd hlt (Nat.not_lt_of_le hle)

theorem Sound.settled_of_created (hs : s.Sound settings) {w : Write}
    (h : (s.step (.write name w)).1.created? = some id) :
    (s.step (.write name w)).2.Settled id (some name) ∧
      (s.step (.write name w)).2.db.committed.entity? id = none := by
  obtain ⟨rfl, hnext⟩ := created_step hs h
  rw [Session.step] at hnext ⊢
  cases ht : s.transaction? name with
  | none =>
    rw [ht] at hnext
    exact absurd hnext (Nat.ne_of_lt (Nat.lt_succ_self _))
  | some t =>
    rw [ht] at hnext
    obtain ⟨n, _, hdb⟩ := Write.db_ran (Write.ran_run ⟨s.db, t⟩ (hs.fits ht).1.sound.current w)
    refine ⟨⟨?_, fun hfound hother _ _ => ?_⟩, ?_⟩
    · show s.db.nextId < _
      rw [hnext]
      exact Nat.lt_succ_self _
    · rcases transaction?_insert hfound with ⟨rfl, rfl⟩ | ⟨_, hfound⟩
      · exact absurd rfl hother
      · exact (hs.fits hfound).2.free
    · show (w.run ⟨s.db, t⟩).2.db.committed.entity? s.db.freshId = none
      rw [hdb]
      exact hs.below.free

/-! ## Sessions -/

/-- The lives of entities, however the transactions of a session are interleaved. No identifier is
handed out twice. What one committed snapshot has and a later one has not is missing, with every
grant that names it, from all that come after. And what is created in a transaction that is not
committed is in no committed snapshot at all. -/
theorem lifetimes_run (settings : Settings) :
    (∀ requests, ((new settings).handedOut requests).Nodup) ∧
    (∀ first second third id,
      ((new settings).run first).db.committed.contains id = true →
      ((new settings).run (first ++ second)).db.committed.contains id = false →
      ((new settings).run (first ++ second ++ third)).db.committed.contains id = false ∧
        ∀ (key : GrantKey) (held : PermissionSet),
          ((new settings).run (first ++ second ++ third)).db.committed.grants.rows[key]? =
            some held → key.principal ≠ id ∧ key.entity ≠ id) ∧
    ∀ before name w after id,
      (((new settings).run before).step (.write name w)).1.created? = some id →
      ((new settings).run (before ++ [.write name w])).publishes name after = false →
      ∀ early late, before ++ .write name w :: after = early ++ late →
        ((new settings).run early).db.committed.contains id = false := by
  have hsound := sound_run (sound_new settings)
  refine ⟨nodup_handedOut (sound_new settings), fun first second third id hpresent habsent => ?_,
    fun before name w after id hcreated hpublishes early late heq => ?_⟩
  · rw [contains_eq_false_iff] at habsent
    have hhad : ((new settings).run first).db.committed.entity? id ≠ none := by
      rw [Ne, ← contains_eq_false_iff, hpresent]
      exact Bool.noConfusion
    have hsettled := (((hsound first).settled hhad).run (hsound first) second).1
    rw [← run_append] at hsettled
    have hlacks := (hsettled.run (hsound (first ++ second)) third).2 habsent
    rw [← run_append] at hlacks
    refine ⟨contains_eq_false_iff.mpr hlacks, fun key held hrow => ?_⟩
    obtain ⟨_, ⟨holder, hholder⟩, hentity⟩ :=
      (hsound (first ++ second ++ third)).db.committed.grants hrow
    exact ⟨ne_of_entity?_eq_none hlacks ⟨_, hholder⟩, ne_of_entity?_eq_none hlacks hentity⟩
  · rw [contains_eq_false_iff]
    obtain ⟨hsettled, hnone⟩ := (hsound before).settled_of_created hcreated
    obtain ⟨rest, rfl, hrest⟩ | ⟨rest, rfl, _⟩ := List.append_eq_append_iff.mp heq
    · cases rest with
      | nil =>
        rw [List.append_nil]
        exact lacks_of_created (List.append_nil before ▸ hcreated)
      | cons r rest =>
        injection hrest with hr hafter
        subst hr hafter
        rw [List.append_cons, run_append]
        rw [run_concat] at hpublishes ⊢
        exact hsettled.run_of_unpublished (sound_step (hsound before) _) hnone hpublishes
    · exact lacks_of_created hcreated

/-- A page is shared with a user. -/
def sharing : List Request :=
  [.begin "setup", .write "setup" (.createNode "User"), .write "setup" (.createNode "Page"),
    .write "setup" (.grant ⟨1⟩ ⟨2⟩ (.single .read)), .commit "setup", .begin "stale"]

/-- While one transaction creates a page, another deletes the shared one. -/
def deletion : List Request :=
  [.write "stale" (.createNode "Page"), .begin "cleaner", .write "cleaner" (.deleteEntity ⟨2⟩),
    .commit "cleaner"]

/-- The first transaction, which still has the shared page, grants and links it. -/
def afterlife : List Request :=
  [.write "stale" (.grant ⟨1⟩ ⟨2⟩ .full), .write "stale" (.createRelationship "Link" ⟨3⟩ ⟨2⟩),
    .commit "stale"]

theorem lifetimes_run_afterlife :
    ((new {}).handedOut (sharing ++ deletion ++ afterlife)).Nodup ∧
    ((new {}).run (sharing ++ deletion ++ afterlife)).db.committed.contains ⟨2⟩ = false ∧
    (∀ (key : GrantKey) (held : PermissionSet),
      ((new {}).run (sharing ++ deletion ++ afterlife)).db.committed.grants.rows[key]? =
        some held → key.principal ≠ ⟨2⟩ ∧ key.entity ≠ ⟨2⟩) ∧
    ((new {}).run (sharing ++ deletion ++ afterlife)).db.committed.contains ⟨3⟩ = false := by
  obtain ⟨hnodup, hgone, hunpublished⟩ := lifetimes_run {}
  obtain ⟨hlacks, hgrants⟩ := hgone sharing deletion afterlife ⟨2⟩ (by decide +kernel)
    (by decide +kernel)
  have hnever := hunpublished sharing "stale" (.createNode "Page")
    (deletion.tail ++ afterlife) ⟨3⟩ (by decide +kernel) (by decide +kernel)
    (sharing ++ deletion ++ afterlife) [] (by simp [deletion])
  exact ⟨hnodup _, hlacks, hgrants, hnever⟩

end Session
end PermissionGraph
