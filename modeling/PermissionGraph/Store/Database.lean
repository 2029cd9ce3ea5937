import PermissionGraph.Access.Query
import PermissionGraph.Store.Transaction

/-!
# PermissionGraph.Store.Database

A store of one graph. It holds the latest committed snapshot, the memo shared by all transactions,
and the counter that identifiers are taken from. Of several transactions that began with the same
version and write, only the first to commit succeeds.
-/

namespace PermissionGraph

/-- A store of one graph. -/
structure Database where
  committed : Snapshot := ∅
  shared : SharedMemo := ∅
  nextId : Nat := 1
  settings : Settings := {}
  deriving DecidableEq

namespace Database

/-- An empty store. Its rules are those of group membership. -/
def new (settings : Settings) : Database :=
  { committed := { rules := .ofMembership settings.membershipName }, settings }

def version (db : Database) : Nat := db.committed.version

def begin (db : Database) : Transaction := .starting db.committed

def freshId (db : Database) : EntityId := ⟨db.nextId⟩

/-- Hands out an identifier, for good. -/
def takeId (db : Database) : Database := { db with nextId := db.nextId + 1 }

/-- What a transaction asks its questions of. -/
def access (db : Database) (t : Transaction) : Access StoreError :=
  { view := t.current.view, settings := db.settings, shared := db.shared }

/-- Publishes a transaction, and says which version is the committed one for it. A transaction that
changed nothing hands over what it resolved; one that did fails if the store has moved on. -/
def commit (db : Database) (t : Transaction) : Except StoreError Nat × Database :=
  let base := t.base.version
  if t.changes.isEmpty then
    (.ok base, { db with shared := db.shared.promote base t.memo.memo })
  else if db.version = base then
    (.ok (base + 1),
      { db with
        committed := { t.current with version := base + 1 }
        shared := db.shared.commit t.changes (base + 1) t.memo.memo })
  else
    (.error (.concurrentModification base db.version), db)

end Database

/-- Asks a transaction, which keeps in its memo what was resolved. -/
def Transaction.ask {α : Type} (db : Database) (t : Transaction)
    (q : Access StoreError → Query StoreError α) :
    Except (AccessError StoreError) α × Transaction :=
  let (result, memo) := (q (db.access t)).ask t.memo
  (result, { t with memo })

end PermissionGraph
