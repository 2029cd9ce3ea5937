import PermissionGraph.Store.Database

/-!
# PermissionGraph.Store.Write

Writes in an open transaction. A write acts on the store, of which it alters no more than the
counter, and on the transaction (`Write.State`). What it has done before it fails it does not take
back.
-/

namespace PermissionGraph

inductive Write where
  | createNode (typeName : String)
  | createRelationship (typeName : String) (source target : EntityId)
  | addMember (group member : EntityId)
  | deleteEntity (id : EntityId)
  | setOwner (id : EntityId) (owner : Option EntityId)
  | setVisibility (id : EntityId) (visibility : Visibility)
  | setAdmin (id : EntityId) (isAdmin : Bool)
  | grant (principal entity : EntityId) (kinds : PermissionSet)
  | revoke (principal entity : EntityId) (kinds : PermissionSet)
  /-- Granting on behalf of an actor, who needs access control on the entity. -/
  | grantAs (actor : Principal) (principal entity : EntityId) (kinds : PermissionSet)
  /-- Revoking on behalf of an actor, who needs access control on the entity. -/
  | revokeAs (actor : Principal) (principal entity : EntityId) (kinds : PermissionSet)
  | declareRule (name : String) (rule : Rule)
  | declareRuleBetween (type : RelationshipType) (rule : Rule)
  | removeRule (name : String)
  | loadRules (document : List Declaration)

inductive Written where
  | done
  | created (id : EntityId)
  /-- Whether there was anything to remove. -/
  | removed (found : Bool)
  deriving DecidableEq, Repr

inductive WriteError where
  | refused (cause : StoreError)
  /-- The actor may not do it, or the store refused it to the actor. -/
  | access (cause : AccessError StoreError)
  deriving DecidableEq, Repr

namespace Write

/-- The state that a write sees and alters: a store and one of its open transactions. -/
structure State where
  db : Database
  transaction : Transaction

/-- Acts on the transaction. -/
def within {ε α : Type} (act : Action Transaction ε α) : Action State ε α :=
  act.focus State.transaction fun t st => { st with transaction := t }

/-- Takes the next identifier. -/
def takeId {ε : Type} : Action State ε EntityId :=
  modifyGet fun st => (st.db.freshId, { st with db := st.db.takeId })

def ask {α : Type} (q : Access StoreError → Query StoreError α) :
    Action State (AccessError StoreError) α :=
  fun st =>
    let (result, t) := st.transaction.ask st.db q
    (result, { st with transaction := t })

def insertNode (typeName : String) : Action State StoreError EntityId := do
  let id ← takeId
  within (Transaction.working (modify (·.insertNode id typeName)))
  within (Transaction.record [.entity id])
  return id

/-- Creates a relationship between two nodes. They are looked up before an identifier is taken, and
once more when the relationship is added. -/
def insertRelationship (typeName : String) (source target : EntityId) :
    Action State StoreError EntityId := do
  let s := (← get).transaction.current
  let _ ← s.requireNode source
  let _ ← s.requireNode target
  let id ← takeId
  within (Transaction.working
    (Snapshot.insertRelationship id (.relationship typeName source target)))
  within (Transaction.record [.relationship id source target])
  return id

def insertMember (group member : EntityId) : Action State StoreError EntityId := do
  insertRelationship (← get).db.settings.membershipName group member

/-- A write that gives nothing back. -/
def plain (act : Action Transaction StoreError Unit) : Action State WriteError Written := do
  (within act).mapError .refused
  return .done

/-- A write that gives back the identifier of what it has created. -/
def creating (act : Action State StoreError EntityId) : Action State WriteError Written := do
  return .created (← act.mapError .refused)

/-- A write on behalf of an actor, who needs access control on the entity. What was resolved to
decide whether the actor may write stays in the memo. -/
def onBehalf (actor : Principal) (entity : EntityId) (act : Action Transaction StoreError Unit) :
    Action State WriteError Written := do
  (ask (·.require actor entity .accessControl)).mapError .access
  (within act).mapError (.access <| .lookup ·)
  return .done

def act : Write → Action State WriteError Written
  | createNode typeName => creating (insertNode typeName)
  | createRelationship typeName source target =>
    creating (insertRelationship typeName source target)
  | addMember group member => creating (insertMember group member)
  | deleteEntity id => plain (Transaction.deleteEntity id)
  | setOwner id owner => plain (Transaction.setOwner id owner)
  | setVisibility id visibility => plain (Transaction.setVisibility id visibility)
  | setAdmin id isAdmin => plain (Transaction.setAdmin id isAdmin)
  | grant principal entity kinds => plain (Transaction.grant principal entity kinds)
  | revoke principal entity kinds => plain (Transaction.revoke principal entity kinds)
  | grantAs actor principal entity kinds =>
    onBehalf actor entity (Transaction.grant principal entity kinds)
  | revokeAs actor principal entity kinds =>
    onBehalf actor entity (Transaction.revoke principal entity kinds)
  | declareRule name rule => plain (Transaction.declareRule name rule)
  | declareRuleBetween type rule => plain (Transaction.declareRuleBetween type rule)
  | removeRule name =>
    return .removed (← (within (Transaction.removeRule name)).mapError .refused)
  | loadRules document => plain (Transaction.loadRules document)

def run (st : State) (w : Write) : Except WriteError Written × State := w.act.on st

end Write
end PermissionGraph
