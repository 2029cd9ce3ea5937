import PermissionGraph.Graph.Principal
import PermissionGraph.Permission.Kind

/-!
# PermissionGraph.Access.Error

Why a question about permissions has no answer. An entity that does not exist is an error; one that
exists but may not be seen is not, its permissions are merely empty.
-/

namespace PermissionGraph

/-- Why access is refused or can not be decided, over a graph whose look-ups fail with an `ε`. -/
inductive AccessError (ε : Type) where
  /-- The entity, or the node of the principal, does not exist. -/
  | entityNotFound (id : EntityId)
  | forbidden (principal : Principal) (entity : EntityId) (required : Permission)
  | lookup (cause : ε)
  deriving DecidableEq, Repr

namespace AccessError

/-- The sentence shown for an error, given the one for a failed look-up. -/
def message {ε : Type} (inner : ε → String) : AccessError ε → String
  | entityNotFound id => "entity " ++ id.toText ++ " not found"
  | forbidden principal entity required =>
    principal.toText ++ " lacks " ++ required.name ++ " permission on entity " ++ entity.toText
  | lookup cause => "store error: " ++ inner cause

end AccessError
end PermissionGraph
