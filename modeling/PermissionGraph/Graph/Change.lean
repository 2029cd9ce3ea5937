import PermissionGraph.Graph.Entity

/-!
# PermissionGraph.Graph.Change

Changes to a graph, its grants or its rules, as a transaction records them. A change names every
entity whose own record, relationships or grants it altered, so that whatever was derived from one
of them can be dropped.
-/

namespace PermissionGraph

/-- One change that can alter permissions. -/
inductive Change where
  /-- The grant of a principal on an entity was added, altered or removed. -/
  | grant (principal entity : EntityId)
  /-- An entity was created or deleted, or one of its flags or its owner was set. -/
  | entity (id : EntityId)
  | relationship (id source target : EntityId)
  | rules
  deriving DecidableEq, Repr

namespace Change

/-- Whether everything derived has to be dropped. -/
def affectsAll : Change → Bool
  | rules => true
  | grant .. | entity _ | relationship .. => false

/-- The entities that a change touches. A grant touches only the entity it is on: what is derived
from grants on an entity depends on that entity, whoever the principal is. -/
def touched : Change → List EntityId
  | grant _ on => [on]
  | entity id => [id]
  | relationship id source target => [id, source, target]
  | rules => []

end Change
end PermissionGraph
