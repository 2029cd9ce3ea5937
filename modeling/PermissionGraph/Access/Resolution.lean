import PermissionGraph.Access.Discovery
import PermissionGraph.Access.Settling

/-!
# PermissionGraph.Access.Resolution

Resolving everything that a walk has found, component by component. Each entity gets the entities
its permissions were derived from: those consulted for its base, its inputs, and all that those
were derived from themselves. The members of a component share one such set.
-/

namespace PermissionGraph

/-- What is resolved so far. -/
abbrev Resolved := EntityMap MemoEntry

namespace Resolved

/-- The permissions on an entity that is resolved. -/
def permissions (r : Resolved) (id : EntityId) : PermissionSet :=
  match r[id]? with
  | some entry => entry.permissions
  | none => ∅

/-- What the permissions on an entity were derived from, if it is resolved. -/
def dependsOn (r : Resolved) (id : EntityId) : EntitySet :=
  match r[id]? with
  | some entry => entry.dependsOn
  | none => ∅

/-- Adds what one derivation rests on. -/
def rest (r : Resolved) (sum : EntitySet) (d : Derivation) : EntitySet :=
  d.origins.foldl (fun sum id => sum.insert id ∪ r.dependsOn id) (sum ∪ d.consulted)

/-- What the members of a component are derived from. -/
def componentDependsOn (r : Resolved) (members : Derivations) : EntitySet :=
  members.foldl (fun sum _ d => r.rest sum d) ∅

/-- Resolves a component, after all that it hangs on. -/
def addComponent (r : Resolved) (members : Derivations) : Resolved :=
  let dependsOn := r.componentDependsOn members
  (Settling.settle members r.permissions).foldl
    (fun sum id permissions => sum.insert id { permissions, dependsOn }) r

/-- Resolves everything that a walk has found. -/
def of (d : Discovery) : Resolved :=
  (Derivations.components d.derivations).foldl addComponent d.remembered

end Resolved
end PermissionGraph
