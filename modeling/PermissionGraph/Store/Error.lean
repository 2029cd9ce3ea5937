import PermissionGraph.Schema.Error
import PermissionGraph.Graph.Entity

/-!
# PermissionGraph.Store.Error

Why a store refuses a write or a commit.
-/

namespace PermissionGraph

inductive StoreError where
  | entityNotFound (id : EntityId)
  /-- The entity is a relationship where a node is needed. -/
  | notANode (id : EntityId)
  /-- The entity is a relationship where a user or group is needed. -/
  | notAPrincipal (id : EntityId)
  | concurrentModification (base current : Nat)
  | schema (cause : SchemaError)
  deriving DecidableEq, Repr

def StoreError.message : StoreError → String
  | entityNotFound id => "entity " ++ id.toText ++ " not found"
  | notANode id => "entity " ++ id.toText ++ " is not a node"
  | notAPrincipal id => "entity " ++ id.toText ++ " can not act as a principal"
  | concurrentModification base current =>
    "store moved from version " ++ toString base ++ " to " ++ toString current
      ++ " since the transaction started"
  | schema cause => cause.message

end PermissionGraph
