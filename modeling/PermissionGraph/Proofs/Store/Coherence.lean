import PermissionGraph.Proofs.Store.Writes

/-!
# PermissionGraph.Proofs.Store.Coherence

What holds of a session whatever has been requested of it. Every open transaction fits the store
(`Transaction.Fits`): its changes tell of all that sets its snapshot apart from the one it began
with, its memo is right about its snapshot, and as long as no later version is committed it began
with the committed snapshot. The shared memo is in step with the committed snapshot.

* `stepped_step`: what a request does to a session.
* `sound_step`, `sound_run`: this holds after every request.
* `answered_run`, `permissions_run`: so every answer is the one that the snapshot leads to without
  any memo.
-/

namespace PermissionGraph

open Std Snapshot

/-- What questions are asked of without a shared memo. -/
def Snapshot.access (s : Snapshot) (settings : Settings) : Access StoreError :=
  { view := s.view, settings }

namespace Transaction

variable {t : Transaction} {db : Database} {settings : Settings}

/-- A transaction whose changes and memo are right about its snapshot. -/
structure Sound (t : Transaction) (settings : Settings) : Prop where
  base : t.base.Consistent
  current : t.current.Consistent
  accounts : t.base.view.Accounts t.current.view t.changes
  unchanged : t.changes = [] → t.current = t.base
  version : t.current.version = t.base.version
  isDirty : t.memo.isDirty = !t.changes.isEmpty
  sharedVersion : t.memo.sharedVersion = some t.base.version
  indexed : t.memo.memo.Indexed
  memo : t.memo.memo.Sound (t.current.access settings).derivations

/-- A transaction that began with a version of a store. -/
structure Fits (t : Transaction) (db : Database) : Prop where
  sound : t.Sound db.settings
  le : t.base.version ≤ db.version
  eq : t.base.version = db.version → t.base = db.committed

end Transaction

/-- A store whose shared memo is right about the committed snapshot. -/
structure Database.Sound (db : Database) : Prop where
  committed : db.committed.Consistent
  version : db.shared.version = db.version
  indexed : db.shared.memo.Indexed
  memo : db.shared.memo.Sound (db.committed.access db.settings).derivations

/-- A store with its open transactions, each of which fits it. No identifier is in use that is
still to be handed out. -/
structure Session.Sound (s : Session) (settings : Settings) : Prop where
  settings : s.db.settings = settings
  db : s.db.Sound
  below : s.db.committed.Below s.db.nextId
  fits : ∀ {name : String} {t : Transaction}, s.transaction? name = some t →
    t.Fits s.db ∧ t.current.Below s.db.nextId

namespace Transaction

variable {t : Transaction} {db : Database}

/-! ## Questions -/

/-- The memo of a transaction can be trusted, and so can what it reads from the shared memo: it
reads that only while it has the committed snapshot. -/
theorem Fits.coherent (h : t.Fits db) (hdb : db.Sound) : (db.access t).Coherent t.memo where
  indexed := h.sound.indexed
  own := h.sound.memo
  shared principal := by
    have hrecall : (db.access t).recalledShared t.memo principal = fun id =>
        if t.memo.isDirty then none else db.shared.get? t.base.version ⟨principal, id⟩ := by
      funext id
      rw [Access.recalledShared, h.sound.sharedVersion]
      rfl
    rw [hrecall]
    by_cases hread : t.changes = [] ∧ db.shared.version = t.base.version
    · obtain ⟨hchanges, hversion⟩ := hread
      have hcurrent : t.current = db.committed := by
        rw [h.sound.unchanged hchanges]
        exact h.eq (hversion.symm.trans hdb.version)
      have hget : (fun id => if t.memo.isDirty then none
          else db.shared.get? t.base.version ⟨principal, id⟩) =
          fun id => db.shared.memo.get? ⟨principal, id⟩ := by
        funext id
        rw [h.sound.isDirty, hchanges, ← hversion, SharedMemo.get?_version]
        rfl
      rw [hget]
      have ht := hdb.memo principal
      rw [← hcurrent] at ht
      exact ht
    · have hget : (fun id => if t.memo.isDirty then none
          else db.shared.get? t.base.version ⟨principal, id⟩) = fun _ => none := by
        funext id
        by_cases hchanges : t.changes = []
        · have hversion : db.shared.version ≠ t.base.version := fun hv => hread ⟨hchanges, hv⟩
          rw [SharedMemo.get?_of_ne hversion]
          simp
        · have hdirty : t.memo.isDirty = true := by
            rw [h.sound.isDirty]
            simpa using hchanges
          rw [if_pos hdirty]
      rw [hget]
      exact .none

theorem Fits.withMemo {memo : LocalMemo} (h : t.Fits db)
    (hmemo : (db.access t).Steady t.memo memo) : ({ t with memo } : Transaction).Fits db where
  sound :=
    { base := h.sound.base
      current := h.sound.current
      accounts := h.sound.accounts
      unchanged := h.sound.unchanged
      version := h.sound.version
      isDirty := hmemo.isDirty.trans h.sound.isDirty
      sharedVersion := hmemo.sharedVersion.trans h.sound.sharedVersion
      indexed := hmemo.coherent.indexed
      memo := hmemo.coherent.own }
  le := h.le
  eq := h.eq

theorem Fits.ask {α : Type} {q : Access StoreError → Query StoreError α} (h : t.Fits db)
    (hdb : db.Sound) (hq : ∀ (a : Access StoreError) (P : LocalMemo → Prop),
      a.PermissionsAlike P P a → Query.Alike P P (q a) (q a)) :
    (t.ask db q).2.Fits db := by
  have halike := hq (db.access t) _ (Access.permissionsAlike rfl rfl t.memo t.memo)
  have hsteady := (h.coherent hdb).steady
  exact h.withMemo (halike t.memo t.memo hsteady hsteady).2.1

/-! ## Writes -/

theorem Fits.write {s : Snapshot} {changes : List Change} {fresh : Option EntityId}
    (h : t.Fits db) (hleads : t.current.Leads s changes fresh) (hne : changes ≠ []) :
    (t.write s changes).Sound db.settings where
  base := by
    rw [base_write]
    exact h.sound.base
  current := by
    rw [current_write]
    exact hleads.consistent
  accounts := by
    rw [base_write, current_write, changes_write]
    exact h.sound.accounts.trans hleads.accounts
  unchanged hnil := by
    rw [changes_write] at hnil
    exact absurd (List.append_eq_nil_iff.mp hnil).2 hne
  version := by
    rw [base_write, current_write, hleads.version]
    exact h.sound.version
  isDirty := by
    rw [memo_write, changes_write, LocalMemo.isDirty_foldl_invalidate, h.sound.isDirty]
    cases t.changes <;> cases changes <;> simp
  sharedVersion := by
    rw [memo_write, base_write, LocalMemo.sharedVersion_foldl_invalidate]
    exact h.sound.sharedVersion
  indexed := by
    rw [memo_write, LocalMemo.memo_foldl_invalidate]
    exact h.sound.indexed.applyAll
  memo := by
    rw [memo_write, current_write, LocalMemo.memo_foldl_invalidate]
    have hsettings : (t.current.access db.settings).settings = (s.access db.settings).settings :=
      rfl
    exact Access.sound_applyAll hsettings hleads.accounts (exists_incidents hleads.consistent)
      h.sound.indexed h.sound.memo

variable {edit : Option Edit} {fresh : Option EntityId}

theorem Fits.take (h : t.Fits db) (hedit : Plan.Settles (.ok edit) (t.current.EditsTo fresh)) :
    (t.take edit).Fits db := by
  cases edit with
  | none => exact h
  | some edit =>
    obtain ⟨hleads, hne⟩ := hedit edit rfl
    refine ⟨h.write hleads hne, ?_, ?_⟩
    · rw [base_take]
      exact h.le
    · rw [base_take]
      exact h.eq

theorem below_take {n n' : Nat} (hbelow : t.current.Below n)
    (hedit : Plan.Settles (.ok edit) (t.current.EditsTo fresh))
    (hfresh : ∀ id, fresh = some id → id.number < n') (hn : n ≤ n') :
    (t.take edit).current.Below n' := by
  intro x e he
  cases edit with
  | none => exact Nat.lt_of_lt_of_le (hbelow x e he) hn
  | some edit =>
    rw [take, current_write] at he
    rcases (hedit edit rfl).1.born x e he with ⟨e', he'⟩ | hx
    · exact Nat.lt_of_lt_of_le (hbelow x e' he') hn
    · exact hfresh x hx

end Transaction

/-! ## Requests -/

namespace Database

variable {db : Database} {t other : Transaction}

theorem Sound.fits_begin (h : db.Sound) : db.begin.Fits db where
  sound :=
    { base := h.committed
      current := h.committed
      accounts := .refl
      unchanged _ := rfl
      version := rfl
      isDirty := rfl
      sharedVersion := rfl
      indexed := Memo.indexed_empty
      memo := Memo.sound_empty }
  le := Nat.le_refl _
  eq _ := rfl

theorem commit_of_unchanged (db : Database) (h : t.changes = []) :
    db.commit t = (.ok t.base.version,
      { db with shared := db.shared.promote t.base.version t.memo.memo }) := by
  rw [commit, h]
  rfl

theorem commit_of_current (h : t.changes ≠ []) (hversion : db.version = t.base.version) :
    db.commit t = (.ok (t.base.version + 1),
      { db with
        committed := { t.current with version := t.base.version + 1 }
        shared := db.shared.commit t.changes (t.base.version + 1) t.memo.memo }) := by
  have hchanges : t.changes.isEmpty = false := by simpa using h
  rw [commit, hchanges]
  simp only [hversion]
  rfl

theorem commit_of_outdated (h : t.changes ≠ []) (hversion : db.version ≠ t.base.version) :
    db.commit t = (.error (.concurrentModification t.base.version db.version), db) := by
  have hchanges : t.changes.isEmpty = false := by simpa using h
  rw [commit, hchanges]
  simp only [hversion]
  rfl

theorem commit_cases (db : Database) (t : Transaction) :
    t.changes = [] ∧ db.commit t = (.ok t.base.version,
        { db with shared := db.shared.promote t.base.version t.memo.memo }) ∨
      t.changes ≠ [] ∧ db.version = t.base.version ∧ db.commit t = (.ok (t.base.version + 1),
        { db with
          committed := { t.current with version := t.base.version + 1 }
          shared := db.shared.commit t.changes (t.base.version + 1) t.memo.memo }) ∨
      t.changes ≠ [] ∧ db.version ≠ t.base.version ∧
        db.commit t = (.error (.concurrentModification t.base.version db.version), db) := by
  by_cases hchanges : t.changes = []
  · exact .inl ⟨hchanges, commit_of_unchanged db hchanges⟩
  · by_cases hversion : db.version = t.base.version
    · exact .inr (.inl ⟨hchanges, hversion, commit_of_current hchanges hversion⟩)
    · exact .inr (.inr ⟨hchanges, hversion, commit_of_outdated hchanges hversion⟩)

theorem settings_commit (db : Database) (t : Transaction) :
    (db.commit t).2.settings = db.settings := by
  rcases commit_cases db t with ⟨_, hc⟩ | ⟨_, _, hc⟩ | ⟨_, _, hc⟩ <;> rw [hc]

theorem nextId_commit (db : Database) (t : Transaction) :
    (db.commit t).2.nextId = db.nextId := by
  rcases commit_cases db t with ⟨_, hc⟩ | ⟨_, _, hc⟩ | ⟨_, _, hc⟩ <;> rw [hc]

theorem below_commit {n : Nat} (hdb : db.committed.Below n) (ht : t.current.Below n) :
    (db.commit t).2.committed.Below n := by
  rcases commit_cases db t with ⟨_, hc⟩ | ⟨_, _, hc⟩ | ⟨_, _, hc⟩
  · rw [hc]
    exact hdb
  · rw [hc]
    exact ht
  · rw [hc]
    exact hdb

/-- After a commit the store is sound, and transactions that are still open fit it. One that began
with the version before can not commit a write any more. -/
theorem Sound.commit (hdb : db.Sound) (h : t.Fits db) :
    (db.commit t).2.Sound ∧ ∀ other : Transaction, other.Fits db → other.Fits (db.commit t).2 := by
  rcases commit_cases db t with ⟨hchanges, hc⟩ | ⟨_, hversion, hc⟩ | ⟨_, _, hc⟩
  · rw [hc]
    refine ⟨?_, fun other ho => ⟨ho.sound, ho.le, ho.eq⟩⟩
    by_cases hversion : db.shared.version = t.base.version
    · have hshared : db.shared.promote t.base.version t.memo.memo =
          { db.shared with memo := db.shared.memo.merge t.memo.memo } := by
        rw [SharedMemo.promote, if_pos hversion]
      have hcurrent : t.current = db.committed := by
        rw [h.sound.unchanged hchanges]
        exact h.eq (hversion.symm.trans hdb.version)
      have hmemo := h.sound.memo
      rw [hcurrent] at hmemo
      rw [hshared]
      exact ⟨hdb.committed, hdb.version, hdb.indexed.merge, hdb.memo.merge hmemo⟩
    · rw [SharedMemo.promote_of_ne hversion]
      exact hdb
  · rw [hc]
    have hbase : t.base = db.committed := h.eq hversion.symm
    have haccounts := h.sound.accounts
    rw [hbase] at haccounts
    have hcurrent := h.sound.current
    have hsettings : (db.committed.access db.settings).settings =
        (t.current.access db.settings).settings := rfl
    have happly := Access.sound_applyAll hsettings haccounts (exists_incidents hcurrent)
      hdb.indexed hdb.memo
    refine ⟨⟨⟨hcurrent.mem_nodes, hcurrent.relationships, hcurrent.mem_directed, hcurrent.ends,
      hcurrent.grants⟩, rfl, hdb.indexed.applyAll.merge, happly.merge h.sound.memo⟩,
      fun other ho => ⟨ho.sound, ?_, ?_⟩⟩
    · have hle := ho.le
      show other.base.version ≤ t.base.version + 1
      omega
    · intro heq
      have hle := ho.le
      have heq : other.base.version = t.base.version + 1 := heq
      omega
  · rw [hc]
    exact ⟨hdb, fun other ho => ho⟩

end Database

namespace Snapshot

variable {s : Snapshot} {n n' : Nat}

theorem Below.mono (h : s.Below n) (hn : n ≤ n') : s.Below n' :=
  fun id e he => Nat.lt_of_lt_of_le (h id e he) hn

theorem Below.free (h : s.Below n) : s.entity? ⟨n⟩ = none := by
  cases he : s.entity? ⟨n⟩ with
  | none => rfl
  | some e => exact absurd (h ⟨n⟩ e he) (Nat.lt_irrefl n)

end Snapshot

namespace Write

variable {st : State} {w : Write} {outcome : Except WriteError Written × State}

theorem fits_asked (hdb : st.db.Sound) (h : st.transaction.Fits st.db) (w : Write) :
    (st.asked w).transaction.Fits st.db := by
  rcases asked_cases st w with heq | ⟨actor, entity, heq⟩
  · rw [heq]
    exact h
  · rw [heq]
    exact h.ask (q := (·.require actor entity .accessControl)) hdb
      fun a P halike => Access.alike_require halike actor entity .accessControl

theorem settles_of_plan {edit : Option Edit} (h : st.transaction.Fits st.db)
    (hbelow : st.transaction.current.Below st.db.nextId)
    (hplan : w.plan st.db.settings st.db.freshId st.transaction.current = .ok edit) :
    Plan.Settles (.ok edit) ((st.asked w).transaction.current.EditsTo
      (w.written st.db.freshId st.transaction.current).created?) := by
  rw [current_asked, ← hplan]
  exact settles_plan st.db.settings h.sound.current hbelow.free w

theorem fits_ran (hdb : st.db.Sound) (h : st.transaction.Fits st.db)
    (hbelow : st.transaction.current.Below st.db.nextId) (hr : Ran st w outcome) :
    outcome.2.transaction.Fits st.db := by
  have hasked := fits_asked hdb h w
  cases hr with
  | refused => exact hasked
  | done hplan => exact hasked.take (settles_of_plan h hbelow hplan)

/-- A write alters nothing of the store but the counter. -/
theorem db_ran (hr : Ran st w outcome) :
    ∃ n, st.db.nextId ≤ n ∧ outcome.2.db = { st.db with nextId := n } := by
  cases hr with
  | refused => exact ⟨st.db.nextId, Nat.le_refl _, db_asked st w⟩
  | done =>
    cases w.written st.db.freshId st.transaction.current with
    | created id => exact ⟨st.db.nextId + 1, by omega, rfl⟩
    | done | removed found => exact ⟨st.db.nextId, Nat.le_refl _, rfl⟩

theorem created_written {fresh id : EntityId} {s : Snapshot}
    (h : (w.written fresh s).created? = some id) :
    w.written fresh s = .created fresh ∧ id = fresh := by
  cases w <;> cases h <;> exact ⟨rfl, rfl⟩

theorem below_ran (h : st.transaction.Fits st.db)
    (hbelow : st.transaction.current.Below st.db.nextId) (hr : Ran st w outcome) :
    outcome.2.transaction.current.Below outcome.2.db.nextId := by
  obtain ⟨n, hn, hdb⟩ := db_ran hr
  cases hr with
  | refused =>
    rw [current_asked, db_asked]
    exact hbelow
  | done hplan =>
    refine Transaction.below_take (n := st.db.nextId) ?_ (settles_of_plan h hbelow hplan)
      (fun id hid => ?_) ?_
    · rw [current_asked]
      exact hbelow
    · obtain ⟨hcreated, rfl⟩ := created_written hid
      rw [hcreated]
      exact Nat.lt_succ_self _
    · rw [hdb]
      exact hn

end Write

/-- The name of the transaction that a request is about. -/
def Request.name : Request → String
  | .begin name | .commit name | .rollback name | .write name _ | .question name _ => name

namespace Session

variable {s : Session} {settings : Settings} {name : String} {t : Transaction}

theorem sound_new (settings : Settings) : (new settings).Sound settings where
  settings := rfl
  db :=
    { committed := consistent_empty _
      version := rfl
      indexed := Memo.indexed_empty
      memo := Memo.sound_empty }
  below id e he := by
    have hnone : (new settings).db.committed.entity? id = none := by
      simp [new, Database.new, entity?]
    rw [hnone] at he
    cases he
  fits {name t} h := by
    have hnone : (new settings).transaction? name = none := by simp [new, transaction?]
    rw [hnone] at h
    cases h

theorem transaction?_insert {db : Database} {other : String} {found : Transaction}
    (h : ({ db, transactions := s.transactions.insert name t } : Session).transaction? other =
      some found) :
    name = other ∧ found = t ∨ name ≠ other ∧ s.transaction? other = some found := by
  have hget : (s.transactions.insert name t)[other]? = some found := h
  rw [ExtTreeMap.getElem?_insert] at hget
  split at hget
  · next hname =>
    injection hget with hget
    exact .inl ⟨Std.compare_eq_iff_eq.mp hname, hget.symm⟩
  · next hname => exact .inr ⟨mt Std.compare_eq_iff_eq.mpr hname, hget⟩

theorem transaction?_erase {db : Database} {other : String} {found : Transaction}
    (h : ({ db, transactions := s.transactions.erase name } : Session).transaction? other =
      some found) : name ≠ other ∧ s.transaction? other = some found := by
  have hget : (s.transactions.erase name)[other]? = some found := h
  rw [ExtTreeMap.getElem?_erase] at hget
  split at hget
  · cases hget
  · next hname => exact ⟨mt Std.compare_eq_iff_eq.mpr hname, hget⟩

/-- What a request does to a session, with the answer that it gets. -/
inductive Stepped (s : Session) : Request → Response × Session → Prop where
  | closed {r : Request} (ht : s.transaction? r.name = none) : Stepped s r (.noTransaction, s)
  | begun (name : String) : Stepped s (.begin name)
      (.begun s.db.version, { s with transactions := s.transactions.insert name s.db.begin })
  | committed {name : String} {t : Transaction} (ht : s.transaction? name = some t) :
      Stepped s (.commit name) (.committed (s.db.commit t).1,
        { db := (s.db.commit t).2, transactions := s.transactions.erase name })
  | rolledBack {name : String} {t : Transaction} (ht : s.transaction? name = some t) :
      Stepped s (.rollback name)
        (.rolledBack, { s with transactions := s.transactions.erase name })
  | written {name : String} {t : Transaction} (w : Write) (ht : s.transaction? name = some t) :
      Stepped s (.write name w) (.written (w.run ⟨s.db, t⟩).1,
        { db := (w.run ⟨s.db, t⟩).2.db
          transactions := s.transactions.insert name (w.run ⟨s.db, t⟩).2.transaction })
  | answered {name : String} {t : Transaction} (q : Question)
      (ht : s.transaction? name = some t) :
      Stepped s (.question name q) (.answered (t.ask s.db q.run).1,
        { s with transactions := s.transactions.insert name (t.ask s.db q.run).2 })

theorem stepped_step (s : Session) (r : Request) : s.Stepped r (s.step r) := by
  cases r with
  | begin name => exact .begun name
  | commit name =>
    rw [step]
    cases ht : s.transaction? name with
    | none => exact .closed ht
    | some t => exact .committed ht
  | rollback name =>
    rw [step]
    cases ht : s.transaction? name with
    | none => exact .closed ht
    | some t => exact .rolledBack ht
  | write name w =>
    rw [step]
    cases ht : s.transaction? name with
    | none => exact .closed ht
    | some t => exact .written w ht
  | question name q =>
    rw [step]
    cases ht : s.transaction? name with
    | none => exact .closed ht
    | some t => exact .answered q ht

/-- Putting what a transaction has become in its place. The store may have handed out identifiers
in between. -/
theorem Sound.insert (name : String) {n : Nat} (h : s.Sound settings) (hn : s.db.nextId ≤ n)
    (ht : t.Fits s.db) (hbelow : t.current.Below n) :
    ({ db := { s.db with nextId := n }, transactions := s.transactions.insert name t } :
      Session).Sound settings where
  settings := h.settings
  db := ⟨h.db.committed, h.db.version, h.db.indexed, h.db.memo⟩
  below := h.below.mono hn
  fits {other found} hfound := by
    rcases transaction?_insert hfound with ⟨_, rfl⟩ | ⟨_, hother⟩
    · exact ⟨⟨ht.sound, ht.le, ht.eq⟩, hbelow⟩
    · obtain ⟨hfits, hother⟩ := h.fits hother
      exact ⟨⟨hfits.sound, hfits.le, hfits.eq⟩, hother.mono hn⟩

theorem sound_commit (h : s.Sound settings) (ht : s.transaction? name = some t) :
    ({ db := (s.db.commit t).2, transactions := s.transactions.erase name } :
      Session).Sound settings := by
  obtain ⟨hfits, hbelow⟩ := h.fits ht
  obtain ⟨hdb, hothers⟩ := h.db.commit hfits
  have hnext : (s.db.commit t).2.nextId = s.db.nextId := Database.nextId_commit s.db t
  refine ⟨(Database.settings_commit s.db t).trans h.settings, hdb, ?_, fun hfound => ?_⟩
  · rw [hnext]
    exact Database.below_commit h.below hbelow
  · obtain ⟨hother, hotherBelow⟩ := h.fits (transaction?_erase hfound).2
    rw [hnext]
    exact ⟨hothers _ hother, hotherBelow⟩

theorem sound_step (h : s.Sound settings) (r : Request) : (s.step r).2.Sound settings := by
  have hstep := s.stepped_step r
  generalize s.step r = outcome at hstep ⊢
  cases hstep with
  | closed => exact h
  | begun name => exact h.insert name (Nat.le_refl _) h.db.fits_begin h.below
  | committed ht => exact sound_commit h ht
  | rolledBack =>
    exact ⟨h.settings, h.db, h.below, fun hfound => h.fits (transaction?_erase hfound).2⟩
  | @written name t w ht =>
    obtain ⟨hfits, hbelow⟩ := h.fits ht
    have hran := Write.ran_run ⟨s.db, t⟩ hfits.sound.current w
    obtain ⟨n, hn, hdb⟩ := Write.db_ran hran
    have hbelow' := Write.below_ran hfits hbelow hran
    rw [hdb] at hbelow'
    have hsound := h.insert name hn (Write.fits_ran h.db hfits hbelow hran) hbelow'
    rw [← hdb] at hsound
    exact hsound
  | @answered name t q ht =>
    obtain ⟨hfits, hbelow⟩ := h.fits ht
    have hasked := hfits.ask (q := q.run) h.db
      fun a P halike => Access.alike_run halike (fun _ => rfl) q
    exact h.insert name (Nat.le_refl _) hasked hbelow

theorem run_append (s : Session) (requests more : List Request) :
    s.run (requests ++ more) = (s.run requests).run more :=
  List.foldl_append

theorem run_concat (s : Session) (requests : List Request) (r : Request) :
    s.run (requests ++ [r]) = ((s.run requests).step r).2 :=
  s.run_append requests [r]

theorem sound_run (h : s.Sound settings) (requests : List Request) :
    (s.run requests).Sound settings := by
  rw [run]
  induction requests generalizing s with
  | nil => exact h
  | cons r requests ih => exact ih (sound_step h r)

theorem Sound.alike (h : s.Sound settings) (ht : s.transaction? name = some t) {α : Type}
    {q q' : Query StoreError α}
    (hq : ∀ P P', (s.db.access t).PermissionsAlike P P' (t.current.access settings) →
      Query.Alike P P' q q') :
    (q.ask t.memo).1 = (q'.ask ∅).1 := by
  have halike := Access.permissionsAlike
    (show (s.db.access t).view = (t.current.access settings).view from rfl) h.settings t.memo ∅
  have hsteady := ((h.fits ht).1.coherent h.db).steady
  exact (hq _ _ halike t.memo ∅ hsteady Access.coherent_empty.steady).1

theorem Sound.permissions_eq (h : s.Sound settings) (ht : s.transaction? name = some t)
    (principal : Principal) (id : EntityId) :
    (t.ask s.db (·.permissions principal id)).1 =
      ((t.current.access settings).answer ∅ principal id).map Prod.fst := by
  rw [← Access.ask_permissions]
  exact h.alike ht fun _ _ halike => halike principal id

/-- Whatever memos a session has come to hold, every question to an open transaction is answered
what its snapshot says. -/
theorem answered_run (settings : Settings) (requests : List Request) {name : String}
    {t : Transaction} (h : ((new settings).run requests).transaction? name = some t)
    (q : Question) :
    (t.ask ((new settings).run requests).db q.run).1 =
      ((q.run (t.current.access settings)).ask ∅).1 := by
  have hsound := sound_run (sound_new settings) requests
  have hsuperuser := Access.isSuperuser_congr
    (show (((new settings).run requests).db.access t).view = (t.current.access settings).view
      from rfl) hsound.settings
  exact hsound.alike h fun _ _ halike => Access.alike_run halike hsuperuser q

/-- No answer is stale: the permissions that an open transaction is told, out of its own memo and
the shared one, are those that its snapshot leads to without any memo. -/
theorem permissions_run (settings : Settings) (requests : List Request) {name : String}
    {t : Transaction} (h : ((new settings).run requests).transaction? name = some t)
    (principal : Principal) (id : EntityId) :
    (t.ask ((new settings).run requests).db (·.permissions principal id)).1 =
      (((t.current.access settings).permissions principal id).ask ∅).1 := by
  have hsound := sound_run (sound_new settings) requests
  exact hsound.alike h fun _ _ halike => halike principal id

/-- Two readers, one that began before a revocation and one that began after it. -/
def revocation : List Request :=
  [.begin "setup", .write "setup" (.createNode "User"), .write "setup" (.createNode "Document"),
    .write "setup" (.grant ⟨1⟩ ⟨2⟩ (.single .read)), .commit "setup",
    .begin "before", .question "before" (.permissions (.user ⟨1⟩) ⟨2⟩),
    .begin "writer", .question "writer" (.permissions (.user ⟨1⟩) ⟨2⟩),
    .write "writer" (.revoke ⟨1⟩ ⟨2⟩ (.single .read)), .commit "writer", .begin "after"]

/-- The first reader may still read the document, the second may do nothing with it. -/
theorem permissions_run_revocation :
    ∃ before after, ((new {}).run revocation).transaction? "before" = some before ∧
      ((new {}).run revocation).transaction? "after" = some after ∧
      (before.ask ((new {}).run revocation).db (·.permissions (.user ⟨1⟩) ⟨2⟩)).1 =
        .ok (.single .read) ∧
      (after.ask ((new {}).run revocation).db (·.permissions (.user ⟨1⟩) ⟨2⟩)).1 = .ok ∅ := by
  have hread : (((new {}).run revocation).transaction? "before").map (fun t =>
      (((t.current.access {}).permissions (.user ⟨1⟩) ⟨2⟩).ask ∅).1) =
        some (.ok (.single .read)) := by decide +kernel
  have hnone : (((new {}).run revocation).transaction? "after").map (fun t =>
      (((t.current.access {}).permissions (.user ⟨1⟩) ⟨2⟩).ask ∅).1) = some (.ok ∅) := by
    decide +kernel
  obtain ⟨before, hbefore, hread⟩ := Option.map_eq_some_iff.mp hread
  obtain ⟨after, hafter, hnone⟩ := Option.map_eq_some_iff.mp hnone
  exact ⟨before, after, hbefore, hafter,
    (permissions_run {} revocation hbefore (.user ⟨1⟩) ⟨2⟩).trans hread,
    (permissions_run {} revocation hafter (.user ⟨1⟩) ⟨2⟩).trans hnone⟩

end Session
end PermissionGraph
