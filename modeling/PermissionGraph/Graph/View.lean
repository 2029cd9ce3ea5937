import PermissionGraph.Graph.Entity
import PermissionGraph.Schema.RuleBook

/-!
# PermissionGraph.Graph.View

What resolving permissions needs to see of a graph: its entities, the relationships touching each,
the explicit grants, and the rules. Look-ups may fail, and a view answers the same look-up always
the same way. A view is finite: every entity that it can produce is in the list `ids`, which is
what bounds a walk through the graph.
-/

namespace PermissionGraph

/-- A finite graph with its grants and rules, seen through look-ups that fail with an `ε`. -/
structure GraphView (ε : Type) where
  /-- Every entity there is, and possibly more. -/
  ids : List EntityId
  entity? : EntityId → Except ε (Option Entity)
  /-- The relationships touching an entity, in no particular order. -/
  incidents : EntityId → Except ε (List Incident)
  /-- The permissions granted to a principal on an entity: none if there is no grant. -/
  granted : EntityId → EntityId → Except ε PermissionSet
  rules : RuleBook
  /-- Entities outside the list are not found. -/
  mem_ids : ∀ {id e}, entity? id = .ok (some e) → id ∈ ids

end PermissionGraph
