import PermissionGraph.Proofs.Store.Coherence

/-!
# PermissionGraph.Proofs.Store.Replay

The serial history of a session. A ledger (`Ledger`) goes along with a session and writes down, for
every open transaction, the writes made in it, and in the end the logs of those that were committed
with changes. Replaying these logs alone, one transaction after another, leads to the committed
snapshot, although the transactions were open side by side and read different memos.

* `twins_run`: a write has one outcome in two transactions with the same snapshot.
* `faithful_step`: what the ledger knows of every open transaction stays true.
* `serial_run`: what a session has committed is what a replay commits.
-/

namespace PermissionGraph

open Std Snapshot

/-! ## Twins -/

namespace Transaction

/-- Two transactions that began with one snapshot and made the same changes. -/
structure Twins (t t' : Transaction) : Prop where
  base : t.base = t'.base
  current : t.current = t'.current
  changes : t.changes = t'.changes

variable {t t' : Transaction}

theorem Twins.take (h : t.Twins t') (edit : Option Edit) : (t.take edit).Twins (t'.take edit) := by
  cases edit with
  | none => exact h
  | some edit =>
    constructor
    · rw [Transaction.take, Transaction.take, base_write, base_write, h.base]
    · rw [Transaction.take, Transaction.take, current_write, current_write]
    · rw [Transaction.take, Transaction.take, changes_write, changes_write, h.changes]

end Transaction

namespace Write

variable {st st' : State}

theorem twins_asked (hdb : st.db.Sound) (hdb' : st'.db.Sound) (h : st.transaction.Fits st.db)
    (h' : st'.transaction.Fits st'.db) (hsettings : st.db.settings = st'.db.settings)
    (htwins : st.transaction.Twins st'.transaction) (w : Write) :
    st.permitted w = st'.permitted w ∧
      (st.asked w).transaction.Twins (st'.asked w).transaction := by
  rw [State.permitted, State.permitted, State.asked, State.asked]
  cases w.actor? with
  | none => exact ⟨rfl, htwins⟩
  | some on =>
    have hview : (st.db.access st.transaction).view = (st'.db.access st'.transaction).view := by
      show st.transaction.current.view = st'.transaction.current.view
      rw [htwins.current]
    have halike := Access.permissionsAlike hview hsettings st.transaction.memo st'.transaction.memo
    have hrequire := Access.alike_require halike on.1 on.2 .accessControl
    exact ⟨(hrequire _ _ (h.coherent hdb).steady (h'.coherent hdb').steady).1,
      htwins.base, htwins.current, htwins.changes⟩

/-- A write has one outcome in two stores with the same settings and counter, if the transactions
are twins. The memos may differ in what they hold. -/
theorem twins_run (hdb : st.db.Sound) (hdb' : st'.db.Sound) (h : st.transaction.Fits st.db)
    (h' : st'.transaction.Fits st'.db) (hsettings : st.db.settings = st'.db.settings)
    (hnext : st.db.nextId = st'.db.nextId) (htwins : st.transaction.Twins st'.transaction)
    (w : Write) : (w.run st).1 = (w.run st').1 ∧
      (w.run st).2.transaction.Twins (w.run st').2.transaction := by
  have hid : st.db.freshId = st'.db.freshId := by rw [Database.freshId, Database.freshId, hnext]
  obtain ⟨hpermitted, hasked⟩ := twins_asked hdb hdb' h h' hsettings htwins w
  rw [run_eq st h.sound.current, run_eq st' h'.sound.current, ← hsettings, ← hid, ← htwins.current,
    hpermitted]
  cases st'.permitted w with
  | error cause => exact ⟨rfl, hasked⟩
  | ok _ =>
    cases w.plan st.db.settings st.db.freshId st.transaction.current with
    | error cause => exact ⟨rfl, hasked⟩
    | ok edit => exact ⟨rfl, hasked.take edit⟩

end Write

/-! ## Ledgers -/

/-- A write as it was made, with the number of the identifier that was next. -/
structure Logged where
  nextId : Nat
  write : Write

namespace Database

/-- Makes a write once more, with the identifier it was handed. -/
def perform (db : Database) (t : Transaction) (l : Logged) : Transaction :=
  (l.write.run ⟨{ db with nextId := l.nextId }, t⟩).2.transaction

/-- Makes the writes of a log in a transaction of its own. -/
def performAll (db : Database) (log : List Logged) : Transaction :=
  log.foldl db.perform db.begin

/-- Makes the writes of a log and commits them. -/
def execute (db : Database) (log : List Logged) : Database := (db.commit (db.performAll log)).2

/-- Executes some logs alone, each from where the one before has led. -/
def replay (settings : Settings) (history : List (List Logged)) : Database :=
  history.foldl execute (.new settings)

end Database

/-- A session with a record of what has been written in it. -/
structure Ledger where
  session : Session
  /-- The writes made in each open transaction, oldest first. -/
  logs : ExtTreeMap String (List Logged) := ∅
  /-- The logs of the transactions that were committed with changes, in the order of the commits. -/
  history : List (List Logged) := []

namespace Ledger

def new (settings : Settings) : Ledger := { session := .new settings }

/-- The writes made so far under a name. -/
def log (l : Ledger) (name : String) : List Logged := l.logs.getD name []

/-- The writes that a request publishes: those of a transaction with changes, if its commit
succeeds. -/
def published (l : Ledger) : Request → List (List Logged)
  | .commit name =>
    match l.session.transaction? name, (l.session.step (.commit name)).1 with
    | some t, .committed (.ok _) => if t.changes.isEmpty then [] else [l.log name]
    | _, _ => []
  | .begin _ | .rollback _ | .write .. | .question .. => []

/-- The logs after a request. What is logged under a name that is not open is forgotten when a
transaction begins under it. -/
def logsAfter (l : Ledger) : Request → ExtTreeMap String (List Logged)
  | .begin name => l.logs.insert name []
  | .write name w => l.logs.insert name (l.log name ++ [⟨l.session.db.nextId, w⟩])
  | .commit _ | .rollback _ | .question .. => l.logs

def step (l : Ledger) (r : Request) : Ledger where
  session := (l.session.step r).2
  logs := l.logsAfter r
  history := l.history ++ l.published r

def run (l : Ledger) (requests : List Request) : Ledger := requests.foldl step l

/-- Executing a log alone on a store that has committed what a transaction began with makes a twin
of the transaction. -/
def Replays (settings : Settings) (t : Transaction) (log : List Logged) : Prop :=
  ∀ db : Database, db.Sound → db.settings = settings → db.committed = t.base →
    t.Twins (db.performAll log) ∧ (db.performAll log).Fits db

/-- What the ledger has written down leads to what the session has come to. -/
structure Faithful (l : Ledger) (settings : Settings) : Prop where
  session : l.session.Sound settings
  replayed : (Database.replay settings l.history).Sound
  configured : (Database.replay settings l.history).settings = settings
  committed : (Database.replay settings l.history).committed = l.session.db.committed
  logs : ∀ {name : String} {t : Transaction}, l.session.transaction? name = some t →
    Replays settings t (l.log name)

variable {l : Ledger} {settings : Settings} {name : String} {t : Transaction}

theorem replays_begin (db : Database) : Replays settings db.begin [] := by
  intro other hother _ hcommitted
  have hbegin : other.performAll [] = other.begin := rfl
  rw [hbegin]
  refine ⟨⟨?_, ?_, rfl⟩, hother.fits_begin⟩
  · exact hcommitted.symm
  · exact hcommitted.symm

theorem Replays.write {db : Database} {log : List Logged} (h : Replays settings t log)
    (hdb : db.Sound) (hsettings : db.settings = settings) (hfits : t.Fits db)
    (hbelow : t.current.Below db.nextId) (w : Write) :
    Replays settings (w.run ⟨db, t⟩).2.transaction (log ++ [⟨db.nextId, w⟩]) := by
  intro other hother hothersettings hcommitted
  have hran := Write.ran_run ⟨db, t⟩ hfits.sound.current w
  rw [Write.base_ran hran] at hcommitted
  obtain ⟨htwins, hotherfits⟩ := h other hother hothersettings hcommitted
  have hperform : other.performAll (log ++ [⟨db.nextId, w⟩]) =
      (w.run ⟨{ other with nextId := db.nextId }, other.performAll log⟩).2.transaction := by
    rw [Database.performAll, List.foldl_append]
    rfl
  have hsound : Database.Sound { other with nextId := db.nextId } :=
    ⟨hother.committed, hother.version, hother.indexed, hother.memo⟩
  have hfits' : (other.performAll log).Fits { other with nextId := db.nextId } :=
    ⟨hotherfits.sound, hotherfits.le, hotherfits.eq⟩
  have hbelow' : (other.performAll log).current.Below db.nextId := by
    rw [← htwins.current]
    exact hbelow
  have hran' := Write.ran_run ⟨{ other with nextId := db.nextId }, other.performAll log⟩
    hfits'.sound.current w
  have htwins' := (@Write.twins_run ⟨db, t⟩
    ⟨{ other with nextId := db.nextId }, other.performAll log⟩ hdb hsound hfits hfits'
    (hsettings.trans hothersettings.symm) rfl htwins w).2
  rw [hperform]
  have hfits'' := Write.fits_ran hsound hfits' hbelow' hran'
  exact ⟨htwins', ⟨hfits''.sound, hfits''.le, hfits''.eq⟩⟩

theorem Replays.ask {db : Database} {log : List Logged} (h : Replays settings t log)
    (q : Question) : Replays settings (t.ask db q.run).2 log := by
  intro other hother hsettings hcommitted
  obtain ⟨htwins, hfits⟩ := h other hother hsettings hcommitted
  exact ⟨⟨htwins.base, htwins.current, htwins.changes⟩, hfits⟩

theorem log_insert {l' : Ledger} {log : List Logged} (h : l'.logs = l.logs.insert name log)
    (other : String) : l'.log other = if name = other then log else l.log other := by
  rw [Ledger.log, h, ExtTreeMap.getD_insert]
  simp only [Std.compare_eq_iff_eq]
  rfl

theorem faithful_new (settings : Settings) : (new settings).Faithful settings where
  session := Session.sound_new settings
  replayed := (Session.sound_new settings).db
  configured := rfl
  committed := rfl
  logs {name t} h := by
    have hnone : (new settings).session.transaction? name = none := by
      simp [new, Session.new, Session.transaction?]
    rw [hnone] at h
    cases h

/-- Executing the log of a transaction publishes what the transaction publishes. -/
theorem Faithful.execute (h : l.Faithful settings) (ht : l.session.transaction? name = some t)
    (hchanges : t.changes ≠ []) (hversion : l.session.db.version = t.base.version) :
    ((Database.replay settings l.history).execute (l.log name)).Sound ∧
      ((Database.replay settings l.history).execute (l.log name)).settings = settings ∧
      ((Database.replay settings l.history).execute (l.log name)).committed =
        (l.session.db.commit t).2.committed := by
  obtain ⟨hfits, _⟩ := h.session.fits ht
  have hbase := hfits.eq hversion.symm
  obtain ⟨htwins, hfits'⟩ := h.logs ht _ h.replayed h.configured (h.committed.trans hbase.symm)
  rw [Database.execute]
  generalize (Database.replay settings l.history).performAll (l.log name) = t' at htwins hfits'
  have hchanges' : t'.changes ≠ [] := by
    rw [← htwins.changes]
    exact hchanges
  have hversion' : (Database.replay settings l.history).version = t'.base.version := by
    rw [← htwins.base, ← hversion, Database.version, h.committed]
    rfl
  refine ⟨(h.replayed.commit hfits').1, ?_, ?_⟩
  · rw [Database.settings_commit]
    exact h.configured
  · rw [Database.commit_of_current hchanges' hversion',
      Database.commit_of_current hchanges hversion, htwins.current, htwins.base]

theorem Faithful.of_unpublished {l' : Ledger} (h : l.Faithful settings)
    (hsession : l'.session.Sound settings) (hhistory : l'.history = l.history)
    (hcommitted : l'.session.db.committed = l.session.db.committed)
    (hlogs : ∀ {name : String} {t : Transaction}, l'.session.transaction? name = some t →
      Replays settings t (l'.log name)) : l'.Faithful settings where
  session := hsession
  replayed := by
    rw [hhistory]
    exact h.replayed
  configured := by
    rw [hhistory]
    exact h.configured
  committed := by
    rw [hhistory, hcommitted]
    exact h.committed
  logs := hlogs

theorem step_commit (ht : l.session.transaction? name = some t) :
    l.session.step (.commit name) = (.committed (l.session.db.commit t).1,
      { db := (l.session.db.commit t).2, transactions := l.session.transactions.erase name }) := by
  rw [Session.step, ht]

theorem published_commit (ht : l.session.transaction? name = some t) :
    l.published (.commit name) =
      match (l.session.db.commit t).1 with
      | .ok _ => if t.changes.isEmpty then [] else [l.log name]
      | .error _ => [] := by
  rw [published, ht, step_commit ht]
  cases (l.session.db.commit t).1 <;> rfl

theorem faithful_commit (h : l.Faithful settings) (name : String) :
    (l.step (.commit name)).Faithful settings := by
  have hsession : (l.step (.commit name)).session.Sound settings :=
    Session.sound_step h.session (.commit name)
  have hhistory : (l.step (.commit name)).history = l.history ++ l.published (.commit name) := rfl
  cases ht : l.session.transaction? name with
  | none =>
    have hstep : l.session.step (.commit name) = (.noTransaction, l.session) := by
      rw [Session.step, ht]
    have hsame : (l.step (.commit name)).session = l.session := by rw [Ledger.step, hstep]
    have hpublished : l.published (.commit name) = [] := by rw [published, ht]
    rw [hpublished, List.append_nil] at hhistory
    refine h.of_unpublished hsession hhistory (by rw [hsame]) fun {other u} hu => ?_
    rw [hsame] at hu
    exact h.logs hu
  | some t =>
    have hafter : (l.step (.commit name)).session =
        { db := (l.session.db.commit t).2, transactions := l.session.transactions.erase name } := by
      rw [Ledger.step, step_commit ht]
    have hlogs : ∀ {other : String} {u : Transaction},
        (l.step (.commit name)).session.transaction? other = some u →
        Replays settings u ((l.step (.commit name)).log other) := by
      intro other u hu
      rw [hafter] at hu
      exact h.logs (Session.transaction?_erase hu).2
    have hpublished := published_commit ht
    rcases Database.commit_cases l.session.db t with
      ⟨hchanges, hc⟩ | ⟨hchanges, hversion, hc⟩ | ⟨_, _, hc⟩
    · rw [hc] at hpublished
      simp only [hchanges, List.isEmpty_nil, if_true] at hpublished
      rw [hpublished, List.append_nil] at hhistory
      exact h.of_unpublished hsession hhistory (by rw [hafter, hc]) hlogs
    · have hempty : t.changes.isEmpty = false := by simpa using hchanges
      rw [hc] at hpublished
      simp only [hempty] at hpublished
      have hreplay : Database.replay settings (l.step (.commit name)).history =
          (Database.replay settings l.history).execute (l.log name) := by
        rw [hhistory, hpublished, Database.replay, List.foldl_append]
        rfl
      obtain ⟨hsound, hsettings, hcommitted⟩ := h.execute ht hchanges hversion
      rw [← hreplay] at hsound hsettings hcommitted
      exact ⟨hsession, hsound, hsettings, by rw [hcommitted, hafter], hlogs⟩
    · rw [hc] at hpublished
      rw [hpublished, List.append_nil] at hhistory
      exact h.of_unpublished hsession hhistory (by rw [hafter, hc]) hlogs

theorem faithful_step (h : l.Faithful settings) (r : Request) : (l.step r).Faithful settings := by
  have hsession : (l.step r).session.Sound settings := Session.sound_step h.session r
  cases r with
  | commit name => exact faithful_commit h name
  | begin name =>
    refine h.of_unpublished hsession (List.append_nil _) rfl fun {other u} hu => ?_
    have hlogs : (l.step (.begin name)).logs = l.logs.insert name [] := rfl
    rw [log_insert hlogs]
    rcases Session.transaction?_insert hu with ⟨hname, rfl⟩ | ⟨hname, hu⟩
    · rw [if_pos hname]
      exact replays_begin l.session.db
    · rw [if_neg hname]
      exact h.logs hu
  | rollback name =>
    have hsession' : (l.step (.rollback name)).session = (l.session.step (.rollback name)).2 := rfl
    have hdb : (l.step (.rollback name)).session.db = l.session.db := by
      rw [hsession', Session.step]
      cases l.session.transaction? name <;> rfl
    refine h.of_unpublished hsession (List.append_nil _) (by rw [hdb]) fun {other u} hu => ?_
    rw [hsession', Session.step] at hu
    cases ht : l.session.transaction? name with
    | none =>
      rw [ht] at hu
      exact h.logs hu
    | some t =>
      rw [ht] at hu
      exact h.logs (Session.transaction?_erase hu).2
  | write name w =>
    have hsession' : (l.step (.write name w)).session = (l.session.step (.write name w)).2 := rfl
    have hlogs : (l.step (.write name w)).logs =
      l.logs.insert name (l.log name ++ [⟨l.session.db.nextId, w⟩]) := rfl
    cases ht : l.session.transaction? name with
    | none =>
      have hsame : (l.step (.write name w)).session = l.session := by
        rw [hsession', Session.step, ht]
      refine h.of_unpublished hsession (List.append_nil _) (by rw [hsame]) fun {other u} hu => ?_
      rw [hsame] at hu
      rw [log_insert hlogs, if_neg]
      · exact h.logs hu
      · rintro rfl
        rw [ht] at hu
        cases hu
    | some t =>
      obtain ⟨hfits, hbelow⟩ := h.session.fits ht
      obtain ⟨n, _, hdb⟩ := Write.db_ran (Write.ran_run ⟨l.session.db, t⟩ hfits.sound.current w)
      have hafter : (l.step (.write name w)).session =
          { db := (w.run ⟨l.session.db, t⟩).2.db,
            transactions := l.session.transactions.insert name
              (w.run ⟨l.session.db, t⟩).2.transaction } := by
        rw [hsession', Session.step, ht]
      refine h.of_unpublished hsession (List.append_nil _) (by rw [hafter, hdb])
        fun {other u} hu => ?_
      rw [hafter] at hu
      rw [log_insert hlogs]
      rcases Session.transaction?_insert hu with ⟨hname, rfl⟩ | ⟨hname, hu⟩
      · rw [if_pos hname]
        exact (h.logs ht).write h.session.db h.session.settings hfits hbelow w
      · rw [if_neg hname]
        exact h.logs hu
  | question name q =>
    have hsession' : (l.step (.question name q)).session = (l.session.step (.question name q)).2 :=
      rfl
    cases ht : l.session.transaction? name with
    | none =>
      have hsame : (l.step (.question name q)).session = l.session := by
        rw [hsession', Session.step, ht]
      refine h.of_unpublished hsession (List.append_nil _) (by rw [hsame]) fun {other u} hu => ?_
      rw [hsame] at hu
      exact h.logs hu
    | some t =>
      have hafter : (l.step (.question name q)).session =
          { db := l.session.db,
            transactions := l.session.transactions.insert name
              (t.ask l.session.db q.run).2 } := by
        rw [hsession', Session.step, ht]
      refine h.of_unpublished hsession (List.append_nil _) (by rw [hafter]) fun {other u} hu => ?_
      rw [hafter] at hu
      rcases Session.transaction?_insert hu with ⟨hname, rfl⟩ | ⟨_, hu⟩
      · rw [← hname]
        exact (h.logs ht).ask q
      · exact h.logs hu

theorem faithful_run (h : l.Faithful settings) (requests : List Request) :
    (l.run requests).Faithful settings := by
  rw [run]
  induction requests generalizing l with
  | nil => exact h
  | cons r requests ih => exact ih (faithful_step h r)

theorem session_run (l : Ledger) (requests : List Request) :
    (l.run requests).session = l.session.run requests := by
  rw [run, Session.run]
  induction requests generalizing l with
  | nil => rfl
  | cons r requests ih => exact ih (l.step r)

end Ledger

/-! ## Serial histories -/

/-- What committing or giving up any of the open transactions of a session comes to. -/
structure Session.CommitsInTurn (s : Session) : Prop where
  /-- A transaction with changes is committed exactly if no other one was since it began. -/
  committed_iff : ∀ {name : String} {t : Transaction}, s.transaction? name = some t →
    t.changes ≠ [] →
      ((∃ v, (s.step (.commit name)).1 = .committed (.ok v)) ↔ s.db.version = t.base.version)
  /-- Then its snapshot is the committed one, under the next version. -/
  writer : ∀ {name : String} {t : Transaction}, s.transaction? name = some t → t.changes ≠ [] →
    s.db.version = t.base.version →
      (s.step (.commit name)).1 = .committed (.ok (t.base.version + 1)) ∧
      (s.step (.commit name)).2.db.committed = { t.current with version := t.base.version + 1 }
  /-- Otherwise the error names both versions, and the store is as it was. -/
  outdated : ∀ {name : String} {t : Transaction}, s.transaction? name = some t → t.changes ≠ [] →
    s.db.version ≠ t.base.version →
      (s.step (.commit name)).1 =
        .committed (.error (.concurrentModification t.base.version s.db.version)) ∧
      (s.step (.commit name)).2.db = s.db
  /-- Without changes there is nothing to publish, and nothing is lost. -/
  reader : ∀ {name : String} {t : Transaction}, s.transaction? name = some t → t.changes = [] →
    t.current = t.base ∧
      (s.step (.commit name)).1 = .committed (.ok t.base.version) ∧
      (s.step (.commit name)).2.db.committed = s.db.committed
  rollback : ∀ (name : String), (s.step (.rollback name)).2.db = s.db

theorem Session.Sound.commitsInTurn {s : Session} {settings : Settings} (h : s.Sound settings) :
    s.CommitsInTurn := by
  have hstep : ∀ {name : String} {t : Transaction}, s.transaction? name = some t →
      s.step (.commit name) = (.committed (s.db.commit t).1,
        { db := (s.db.commit t).2, transactions := s.transactions.erase name }) := by
    intro name t ht
    rw [Session.step, ht]
  constructor
  · intro name t ht hchanges
    rw [hstep ht]
    by_cases hversion : s.db.version = t.base.version
    · rw [Database.commit_of_current hchanges hversion]
      exact ⟨fun _ => hversion, fun _ => ⟨_, rfl⟩⟩
    · rw [Database.commit_of_outdated hchanges hversion]
      constructor
      · rintro ⟨v, hv⟩
        injection hv with hv
        cases hv
      · exact fun hv => absurd hv hversion
  · intro name t ht hchanges hversion
    rw [hstep ht, Database.commit_of_current hchanges hversion]
    exact ⟨rfl, rfl⟩
  · intro name t ht hchanges hversion
    rw [hstep ht, Database.commit_of_outdated hchanges hversion]
    exact ⟨rfl, rfl⟩
  · intro name t ht hchanges
    rw [hstep ht, Database.commit_of_unchanged s.db hchanges]
    exact ⟨(h.fits ht).1.sound.unchanged hchanges, rfl, rfl⟩
  · intro name
    rw [Session.step]
    cases s.transaction? name <;> rfl

/-- Whatever is requested in whatever order, commits take effect one at a time: the committed
snapshot is the one that the transactions committed with changes lead to when each is made alone,
after the one before. -/
theorem Ledger.serial_run (settings : Settings) (requests : List Request) :
    ((Ledger.new settings).run requests).session = (Session.new settings).run requests ∧
      ((Session.new settings).run requests).CommitsInTurn ∧
      (Database.replay settings ((Ledger.new settings).run requests).history).committed =
        ((Session.new settings).run requests).db.committed ∧
      ((Session.new settings).run requests).db.shared.version =
        ((Session.new settings).run requests).db.version := by
  have hsession := session_run (Ledger.new settings) requests
  have hfaithful := faithful_run (faithful_new settings) requests
  have hsound := Session.sound_run (Session.sound_new settings) requests
  refine ⟨hsession, hsound.commitsInTurn, ?_, hsound.db.version⟩
  rw [hfaithful.committed, hsession]
  rfl

end PermissionGraph
