import PermissionGraph.Store.Write
import PermissionGraph.Value.Filter

/-!
# PermissionGraph.Store.Session

Several transactions at work on one store, one request after another. Each open transaction has a
name. A session is the whole state that requests can see or alter, and `Session.step` is all that a
request does to it.

* `Question`: what is asked of a transaction. `Question.run`.
* `Request`, `Session.step`, `Session.run`: what happens to a session.
-/

namespace PermissionGraph

open Std

inductive Question where
  | permissions (principal : Principal) (entity : EntityId)
  | isAllowed (principal : Principal) (entity : EntityId) (kind : Permission)
  | isVisible (principal : Principal) (entity : EntityId)
  | require (principal : Principal) (entity : EntityId) (kind : Permission)
  | isSuperuser (principal : Principal)
  | canLink (principal : Principal) (source target : EntityId)
  | filter (principal : Principal) (value : Value)

/-- What a question that has an answer is answered. -/
inductive Answer where
  | permissions (s : PermissionSet)
  | verdict (b : Bool)
  | granted
  | reduced (value : Option Value)

namespace Question

def run {ε : Type} (a : Access ε) : Question → Query ε Answer
  | permissions principal id => return .permissions (← a.permissions principal id)
  | isAllowed principal id kind => return .verdict (← a.isAllowed principal id kind)
  | isVisible principal id => return .verdict (← a.isVisible principal id)
  | require principal id kind => do
    a.require principal id kind
    return .granted
  | isSuperuser principal => return .verdict (← ExceptT.mk (pure (a.isSuperuser principal)))
  | canLink principal source target => return .verdict (← a.canLink principal source target)
  | filter principal value => return .reduced (← a.filter principal value)

end Question

inductive Request where
  /-- Begins a transaction under a name; one that is open under it is given up. -/
  | begin (name : String)
  | commit (name : String)
  | rollback (name : String)
  | write (name : String) (w : Write)
  | question (name : String) (q : Question)

inductive Response where
  | noTransaction
  | begun (version : Nat)
  | committed (result : Except StoreError Nat)
  | rolledBack
  | written (result : Except WriteError Written)
  | answered (result : Except (AccessError StoreError) Answer)

/-- A store with its open transactions. -/
structure Session where
  db : Database
  transactions : ExtTreeMap String Transaction := ∅

namespace Session

def new (settings : Settings) : Session := { db := .new settings }

def transaction? (s : Session) (name : String) : Option Transaction := s.transactions[name]?

def step (s : Session) : Request → Response × Session
  | .begin name =>
    (.begun s.db.version, { s with transactions := s.transactions.insert name s.db.begin })
  | .commit name =>
    match s.transaction? name with
    | none => (.noTransaction, s)
    | some t =>
      let (result, db) := s.db.commit t
      (.committed result, { db, transactions := s.transactions.erase name })
  | .rollback name =>
    match s.transaction? name with
    | none => (.noTransaction, s)
    | some _ => (.rolledBack, { s with transactions := s.transactions.erase name })
  | .write name w =>
    match s.transaction? name with
    | none => (.noTransaction, s)
    | some t =>
      let (result, st) := w.run ⟨s.db, t⟩
      (.written result,
        { db := st.db, transactions := s.transactions.insert name st.transaction })
  | .question name q =>
    match s.transaction? name with
    | none => (.noTransaction, s)
    | some t =>
      let (result, t) := t.ask s.db q.run
      (.answered result, { s with transactions := s.transactions.insert name t })

def run (s : Session) (requests : List Request) : Session :=
  requests.foldl (fun s r => (s.step r).2) s

end Session
end PermissionGraph
