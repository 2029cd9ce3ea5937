import PermissionGraph.Memo.Local
import PermissionGraph.Schema.Declaration
import PermissionGraph.Store.Snapshot

/-!
# PermissionGraph.Store.Transaction

A unit of work on a store. A transaction reads the snapshot it began with and its own writes. It
lists every change it makes, and drops from its memo what a change could have altered.

Every write checks what it is given, acts on the snapshot and then lists its changes; it can fail at
each of these steps but the last.
-/

namespace PermissionGraph

structure Transaction where
  base : Snapshot
  /-- The snapshot with the writes of the transaction. -/
  current : Snapshot
  /-- Every change made, oldest first. -/
  changes : List Change := []
  memo : LocalMemo := ∅
  deriving DecidableEq

namespace Transaction

/-- A transaction that begins with a committed snapshot. -/
def starting (s : Snapshot) : Transaction :=
  { base := s, current := s, memo := .reading s.version }

/-- Acts on the snapshot with the writes. -/
def working {ε α : Type} (act : Action Snapshot ε α) : Action Transaction ε α :=
  act.focus current fun s t => { t with current := s }

/-- Lists a change, and drops from the memo what it could have altered. -/
def note (t : Transaction) (change : Change) : Transaction :=
  { t with changes := t.changes ++ [change], memo := (t.memo.invalidate change).2 }

def record {ε : Type} (changes : List Change) : Action Transaction ε Unit :=
  modify fun t => changes.foldl note t

/-- Deletes an entity; with a node go its relationships. -/
def deleteEntity (id : EntityId) : Action Transaction StoreError Unit := do
  let _ ← (← get).current.requireEntity id
  let changes ← working (Snapshot.removeEntity id)
  record changes

def update (id : EntityId) (f : Entity → Entity) : Action Transaction StoreError Unit := do
  let _ ← (← get).current.requireEntity id
  working (Snapshot.modifyEntity id f)
  record [.entity id]

/-- Sets or clears the owner of an entity. An owner must be able to act as a principal. -/
def setOwner (id : EntityId) (owner : Option EntityId) : Action Transaction StoreError Unit := do
  if let some owner := owner then
    let _ ← (← get).current.requirePrincipal owner
  update id ({ · with owner })

def setVisibility (id : EntityId) (visibility : Visibility) : Action Transaction StoreError Unit :=
  update id ({ · with visibility })

def setAdmin (id : EntityId) (isAdmin : Bool) : Action Transaction StoreError Unit := do
  let _ ← (← get).current.requirePrincipal id
  update id ({ · with isAdmin })

/-- Acts on the grants. -/
def onGrants {α : Type} (f : Grants → α × Grants) : Action Transaction StoreError α :=
  working (modifyGet fun s => ((f s.grants).1, { s with grants := (f s.grants).2 }))

/-- Writes what a principal is granted on an entity, unless what is held there needs no change. -/
def writeGrants (principal entity : EntityId) (changes : PermissionSet → Bool)
    (f : Grants → Bool × Grants) : Action Transaction StoreError Unit := do
  let s := (← get).current
  let _ ← s.requirePrincipal principal
  let _ ← s.requireEntity entity
  if changes (s.grants.lookup principal entity) then
    let _ ← onGrants f
    record [.grant principal entity]

/-- Grants kinds to a principal on an entity. Nothing is written if they are held already. -/
def grant (principal entity : EntityId) (kinds : PermissionSet) :
    Action Transaction StoreError Unit :=
  writeGrants principal entity (!·.contains kinds) (·.grant principal entity kinds)

/-- Revokes kinds from a principal on an entity. Nothing is written if none of them is held. -/
def revoke (principal entity : EntityId) (kinds : PermissionSet) :
    Action Transaction StoreError Unit :=
  writeGrants principal entity (·.intersects kinds) (·.revoke principal entity kinds)

/-- Acts on the rules. -/
def onRules {α : Type} (f : RuleBook → α × RuleBook) : Action Transaction StoreError α :=
  working (modifyGet fun s => ((f s.rules).1, { s with rules := (f s.rules).2 }))

def declareRule (name : String) (rule : Rule) : Action Transaction StoreError Unit := do
  onRules fun rules => ((), rules.declare name rule)
  record [.rules]

def declareRuleBetween (type : RelationshipType) (rule : Rule) :
    Action Transaction StoreError Unit := do
  onRules fun rules => ((), rules.declareBetween type rule)
  record [.rules]

/-- Removes the rules of a name, and says whether there were any. -/
def removeRule (name : String) : Action Transaction StoreError Bool := do
  let removed ← onRules (·.remove name)
  if removed then record [.rules]
  return removed

/-- Declares the rules of a document. They are declared to a copy of the rules first, which takes
their place only if all of the document could be read. -/
def loadRules (document : List Declaration) : Action Transaction StoreError Unit := do
  match (RuleBook.extend document).on (← get).current.rules with
  | (.error cause, _) => throw (.schema cause)
  | (.ok (), rules) =>
    onRules fun _ => ((), rules)
    record [.rules]

end Transaction
end PermissionGraph
