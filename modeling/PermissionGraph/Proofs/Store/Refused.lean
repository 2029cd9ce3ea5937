import PermissionGraph.Proofs.Store.Lifetimes
import PermissionGraph.Proofs.Store.Replay

/-!
# PermissionGraph.Proofs.Store.Refused

What a write leaves behind that is refused. It can have filled a memo, to decide whether the actor
may write, and has done nothing else. Sessions that differ in memos only (`Session.Twins`) answer
every request alike, so nobody can tell that the write was tried.

* `step_twins`: a request has one response in two such sessions, and they go on to differ in memos
  only.
* `responses_twins`: so it is with any number of requests.
* `state_of_refused`, `exists_memo_asked`: what a write has done that is refused.
* `refused_run`: both, for every session.
-/

namespace PermissionGraph

open Std

/-! ## Stores -/

namespace Database

variable {db db' : Database} {t t' : Transaction}

/-- Two stores that differ in their shared memos only. -/
structure Twins (db db' : Database) : Prop where
  committed : db.committed = db'.committed
  nextId : db.nextId = db'.nextId
  settings : db.settings = db'.settings

theorem Twins.version (h : db.Twins db') : db.version = db'.version :=
  congrArg Snapshot.version h.committed

theorem Twins.after (h : db.Twins db') (written : Written) :
    (db.after written).Twins (db'.after written) := by
  cases written with
  | created id => exact ⟨h.committed, congrArg (· + 1) h.nextId, h.settings⟩
  | done | removed found => exact h

theorem Twins.commit (h : db.Twins db') (ht : t.Twins t') :
    (db.commit t).1 = (db'.commit t').1 ∧ (db.commit t).2.Twins (db'.commit t').2 := by
  rw [Database.commit, Database.commit, ← ht.base, ← ht.current, ← ht.changes, ← h.version]
  cases t.changes.isEmpty with
  | true => exact ⟨rfl, h.committed, h.nextId, h.settings⟩
  | false =>
    by_cases hversion : db.version = t.base.version
    · simp only [hversion]
      exact ⟨rfl, rfl, h.nextId, h.settings⟩
    · simp only [hversion]
      exact ⟨rfl, h⟩

end Database

/-! ## Writes -/

namespace Write

variable {st : State} {cause : WriteError}

theorem db_of_ok {w : Write} {written : Written} {outcome : Except WriteError Written × State}
    (hr : Ran st w outcome) (h : outcome.1 = .ok written) :
    outcome.2.db = st.db.after written := by
  cases hr with
  | refused => cases h
  | done =>
    injection h with h
    rw [h]

/-- Of all the steps that a write takes, those that a refused one has taken come down to asking
whether the actor may write. -/
theorem state_of_refused {w : Write} {outcome : Except WriteError Written × State}
    (hr : Ran st w outcome) (h : outcome.1 = .error cause) : outcome.2 = st.asked w := by
  cases hr with
  | refused => rfl
  | done => cases h

theorem exists_memo_asked (hdb : st.db.Sound) (hfits : st.transaction.Fits st.db) (w : Write) :
    ∃ memo : LocalMemo, st.asked w = { st with transaction := { st.transaction with memo } } ∧
      memo.isDirty = st.transaction.memo.isDirty ∧
      memo.sharedVersion = st.transaction.memo.sharedVersion := by
  rcases asked_cases st w with hasked | ⟨actor, entity, hasked⟩
  · exact ⟨st.transaction.memo, hasked, rfl, rfl⟩
  · have hsteady := (hfits.coherent hdb).steady
    have halike := Access.permissionsAlike (a := st.db.access st.transaction) rfl rfl
      st.transaction.memo st.transaction.memo
    have hafter := (Access.alike_require halike actor entity .accessControl _ _ hsteady hsteady).2.1
    exact ⟨_, hasked, hafter.isDirty, hafter.sharedVersion⟩

theorem twins_db {st' : State} {w : Write} (hs : st.transaction.current.Consistent)
    (hs' : st'.transaction.current.Consistent) (h : st.db.Twins st'.db)
    (hresult : (w.run st).1 = (w.run st').1) : (w.run st).2.db.Twins (w.run st').2.db := by
  have hran := ran_run st hs w
  have hran' := ran_run st' hs' w
  cases hwritten : (w.run st).1 with
  | error cause =>
    rw [state_of_refused hran hwritten, state_of_refused hran' (hresult ▸ hwritten), db_asked,
      db_asked]
    exact h
  | ok written =>
    rw [db_of_ok hran hwritten, db_of_ok hran' (hresult ▸ hwritten)]
    exact h.after written

end Write

/-! ## Sessions -/

namespace Session

variable {s s' : Session} {settings : Settings} {name : String} {t t' : Transaction}

/-- Two sessions that differ in memos only. -/
structure Twins (s s' : Session) : Prop where
  db : s.db.Twins s'.db
  transactions : ∀ name, Option.Rel Transaction.Twins (s.transaction? name) (s'.transaction? name)

theorem Twins.transaction?_cases (h : s.Twins s') (name : String) :
    (s.transaction? name = none ∧ s'.transaction? name = none) ∨
      ∃ t t', s.transaction? name = some t ∧ s'.transaction? name = some t' ∧ t.Twins t' := by
  have hrel := h.transactions name
  generalize s.transaction? name = found at hrel ⊢
  generalize s'.transaction? name = found' at hrel ⊢
  cases hrel with
  | none => exact .inl ⟨rfl, rfl⟩
  | some ht => exact .inr ⟨_, _, rfl, rfl, ht⟩

theorem Twins.insert {db db' : Database} (h : s.Twins s') (hdb : db.Twins db') (name : String)
    (ht : t.Twins t') :
    Twins { db, transactions := s.transactions.insert name t }
      { db := db', transactions := s'.transactions.insert name t' } where
  db := hdb
  transactions other := by
    show Option.Rel _ (s.transactions.insert name t)[other]?
      (s'.transactions.insert name t')[other]?
    rw [ExtTreeMap.getElem?_insert, ExtTreeMap.getElem?_insert]
    split
    · exact .some ht
    · exact h.transactions other

theorem Twins.erase {db db' : Database} (h : s.Twins s') (hdb : db.Twins db') (name : String) :
    Twins { db, transactions := s.transactions.erase name }
      { db := db', transactions := s'.transactions.erase name } where
  db := hdb
  transactions other := by
    show Option.Rel _ (s.transactions.erase name)[other]? (s'.transactions.erase name)[other]?
    rw [ExtTreeMap.getElem?_erase, ExtTreeMap.getElem?_erase]
    split
    · exact .none
    · exact h.transactions other

theorem Twins.refl (s : Session) : s.Twins s where
  db := ⟨rfl, rfl, rfl⟩
  transactions name := by
    cases s.transaction? name with
    | none => exact .none
    | some t => exact .some ⟨rfl, rfl, rfl⟩

theorem twins_insert (ht : s.transaction? name = some t) (memo : LocalMemo) :
    Twins { s with transactions := s.transactions.insert name { t with memo } } s where
  db := (Twins.refl s).db
  transactions other := by
    show Option.Rel _ (s.transactions.insert name { t with memo })[other]? _
    rw [ExtTreeMap.getElem?_insert]
    split
    · next hname =>
      rw [Std.compare_eq_iff_eq] at hname
      rw [← hname, ht]
      exact .some ⟨rfl, rfl, rfl⟩
    · exact (Twins.refl s).transactions other

theorem twins_question (hs : s.Sound settings) (hs' : s'.Sound settings) (h : s.Twins s')
    (ht : s.transaction? name = some t) (ht' : s'.transaction? name = some t')
    (htwins : t.Twins t') (q : Question) :
    (t.ask s.db q.run).1 = (t'.ask s'.db q.run).1 := by
  have hview : (s.db.access t).view = (s'.db.access t').view :=
    congrArg Snapshot.view htwins.current
  have halike := Access.permissionsAlike hview h.db.settings t.memo t'.memo
  have hsteady := ((hs.fits ht).1.coherent hs.db).steady
  have hsteady' := ((hs'.fits ht').1.coherent hs'.db).steady
  have hrun := Access.alike_run halike (Access.isSuperuser_congr hview h.db.settings) q
  exact (hrun _ _ hsteady hsteady').1

/-- A request has one response in two sessions that differ in memos only, and they go on to differ
in memos only. -/
theorem step_twins (hs : s.Sound settings) (hs' : s'.Sound settings) (h : s.Twins s')
    (r : Request) : (s.step r).1 = (s'.step r).1 ∧ (s.step r).2.Twins (s'.step r).2 := by
  cases r with
  | begin name =>
    refine ⟨congrArg Response.begun h.db.version, h.insert h.db name ?_⟩
    rw [Database.begin, Database.begin, h.db.committed]
    exact ⟨rfl, rfl, rfl⟩
  | commit name =>
    rcases h.transaction?_cases name with ⟨hnone, hnone'⟩ | ⟨t, t', ht, ht', htwins⟩
    · rw [step, step, hnone, hnone']
      exact ⟨rfl, h⟩
    · obtain ⟨hresult, hdb⟩ := h.db.commit htwins
      rw [step, step, ht, ht']
      exact ⟨congrArg Response.committed hresult, h.erase hdb name⟩
  | rollback name =>
    rcases h.transaction?_cases name with ⟨hnone, hnone'⟩ | ⟨t, t', ht, ht', _⟩
    · rw [step, step, hnone, hnone']
      exact ⟨rfl, h⟩
    · rw [step, step, ht, ht']
      exact ⟨rfl, h.erase h.db name⟩
  | write name w =>
    rcases h.transaction?_cases name with ⟨hnone, hnone'⟩ | ⟨t, t', ht, ht', htwins⟩
    · rw [step, step, hnone, hnone']
      exact ⟨rfl, h⟩
    · obtain ⟨hresult, hran⟩ := @Write.twins_run ⟨s.db, t⟩ ⟨s'.db, t'⟩ hs.db hs'.db
        (hs.fits ht).1 (hs'.fits ht').1 h.db.settings h.db.nextId htwins w
      have hdb := @Write.twins_db ⟨s.db, t⟩ ⟨s'.db, t'⟩ w (hs.fits ht).1.sound.current
        (hs'.fits ht').1.sound.current h.db hresult
      rw [step, step, ht, ht']
      exact ⟨congrArg Response.written hresult, h.insert hdb name hran⟩
  | question name q =>
    rcases h.transaction?_cases name with ⟨hnone, hnone'⟩ | ⟨t, t', ht, ht', htwins⟩
    · rw [step, step, hnone, hnone']
      exact ⟨rfl, h⟩
    · have hanswer := twins_question hs hs' h ht ht' htwins q
      rw [step, step, ht, ht']
      exact ⟨congrArg Response.answered hanswer,
        h.insert h.db name ⟨htwins.base, htwins.current, htwins.changes⟩⟩

theorem responses_twins (hs : s.Sound settings) (hs' : s'.Sound settings) (h : s.Twins s')
    (requests : List Request) : s.responses requests = s'.responses requests := by
  induction requests generalizing s s' with
  | nil => rfl
  | cons r rest ih =>
    obtain ⟨hresponse, hrest⟩ := step_twins hs hs' h r
    rw [responses, responses, hresponse, ih (sound_step hs r) (sound_step hs' r) hrest]

theorem exists_of_refused {w : Write} {cause : WriteError}
    (h : (s.step (.write name w)).1 = .written (.error cause)) :
    ∃ t, s.transaction? name = some t ∧ (w.run ⟨s.db, t⟩).1 = .error cause ∧
      (s.step (.write name w)).2 =
        { db := (w.run ⟨s.db, t⟩).2.db
          transactions := s.transactions.insert name (w.run ⟨s.db, t⟩).2.transaction } := by
  rw [step] at h ⊢
  cases ht : s.transaction? name with
  | none =>
    rw [ht] at h
    cases h
  | some t =>
    rw [ht] at h
    injection h with h
    exact ⟨t, rfl, h, rfl⟩

/-- Whatever is requested of a session, a write that is refused leaves the store and all
transactions as they were, but for what the memo of one may have come to hold. All later requests
are answered as if the write had never been tried. -/
theorem refused_run (settings : Settings) (requests : List Request) {name : String} {w : Write}
    {cause : WriteError}
    (h : (((new settings).run requests).step (.write name w)).1 = .written (.error cause)) :
    ∃ t, ∃ memo : LocalMemo, ((new settings).run requests).transaction? name = some t ∧
      (((new settings).run requests).step (.write name w)).2 =
        { db := ((new settings).run requests).db
          transactions := ((new settings).run requests).transactions.insert name
            { t with memo } } ∧
      memo.isDirty = t.memo.isDirty ∧ memo.sharedVersion = t.memo.sharedVersion ∧
      ∀ more, (((new settings).run requests).step (.write name w)).2.responses more =
        ((new settings).run requests).responses more := by
  have hsound := sound_run (sound_new settings) requests
  have hsound' := sound_step hsound (.write name w)
  generalize (new settings).run requests = s at h hsound hsound' ⊢
  obtain ⟨t, ht, hrefused, hstep⟩ := exists_of_refused h
  have hfits := (hsound.fits ht).1
  obtain ⟨memo, hasked, hdirty, hversion⟩ :=
    @Write.exists_memo_asked ⟨s.db, t⟩ hsound.db hfits w
  rw [Write.state_of_refused (Write.ran_run ⟨s.db, t⟩ hfits.sound.current w) hrefused, hasked]
    at hstep
  refine ⟨t, memo, ht, hstep, hdirty, hversion, fun more => ?_⟩
  refine responses_twins hsound' hsound ?_ more
  rw [hstep]
  exact twins_insert ht memo

/-- A user who has no access control on a page, and a transaction that has already written. -/
def trespass : List Request :=
  [.begin "setup", .write "setup" (.createNode "User"), .write "setup" (.createNode "Page"),
    .write "setup" (.grant ⟨1⟩ ⟨2⟩ (.single .read)), .commit "setup", .begin "reader",
    .begin "writer", .write "writer" (.createNode "Page")]

/-- The write is refused only after the permissions of the user have been resolved. -/
theorem refused_run_trespass :
    ∃ t, ∃ memo : LocalMemo, ((new {}).run trespass).transaction? "writer" = some t ∧
      (((new {}).run trespass).step
        (.write "writer" (.grantAs (.user ⟨1⟩) ⟨1⟩ ⟨2⟩ .full))).2 =
        { db := ((new {}).run trespass).db
          transactions := ((new {}).run trespass).transactions.insert "writer"
            { t with memo } } ∧
      t.memo.size = 0 ∧ memo.size = 1 ∧ t.memo.isDirty = true ∧ memo.isDirty = true ∧
      ∀ more, (((new {}).run trespass).step
          (.write "writer" (.grantAs (.user ⟨1⟩) ⟨1⟩ ⟨2⟩ .full))).2.responses more =
        ((new {}).run trespass).responses more := by
  obtain ⟨t, ht, hrefused⟩ := (Option.any_eq_true _ _).mp
    (show (((new {}).run trespass).transaction? "writer").any (fun t =>
      (Write.run ⟨((new {}).run trespass).db, t⟩ (.grantAs (.user ⟨1⟩) ⟨1⟩ ⟨2⟩ .full)).1 =
          .error (.access (.forbidden (.user ⟨1⟩) ⟨2⟩ .accessControl)) ∧
        t.memo.size = 0 ∧ t.memo.isDirty = true) = true by decide +kernel)
  obtain ⟨hrefused, hempty, hdirty⟩ := of_decide_eq_true hrefused
  have hstep : (((new {}).run trespass).step
      (.write "writer" (.grantAs (.user ⟨1⟩) ⟨1⟩ ⟨2⟩ .full))).1 =
      .written (.error (.access (.forbidden (.user ⟨1⟩) ⟨2⟩ .accessControl))) := by
    rw [step, ht]
    exact congrArg Response.written hrefused
  obtain ⟨t', memo, ht', hleft, hmemo, _, hmore⟩ := refused_run {} trespass hstep
  rw [ht, Option.some_inj] at ht'
  subst ht'
  have hfilled : ((((new {}).run trespass).step
      (.write "writer" (.grantAs (.user ⟨1⟩) ⟨1⟩ ⟨2⟩ .full))).2.transaction? "writer").any
      (fun t => t.memo.size = 1) = true := by decide +kernel
  rw [hleft, transaction?, ExtTreeMap.getElem?_insert_self] at hfilled
  exact ⟨t, memo, ht, hleft, hempty, of_decide_eq_true hfilled, hdirty, hmemo.trans hdirty, hmore⟩

end Session
end PermissionGraph
