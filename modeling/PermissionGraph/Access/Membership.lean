import PermissionGraph.Access.Error
import PermissionGraph.Graph.View
import PermissionGraph.Order.Sort
import PermissionGraph.Settings

/-!
# PermissionGraph.Access.Membership

The groups a user belongs to, and the grants the user inherits from them. A membership hop leads
from a member to a group over a relationship of the configured name whose rule propagates towards
the member. Groups are reached level by level, each at its least distance from the user; a hop that
does not lead one level deeper is passed over, so cycles of groups do no harm. At the greatest
depth hops are still looked up but lead nowhere.

* `closure`: the user and its groups, deepest first, each with the hops it inherits over.
* `inherited`: what the user holds on an entity through grants, evaluated from the deepest group up.
-/

namespace PermissionGraph

variable {ε : Type}

/-- A hop from a member to a group, with the rule that governs it. -/
structure Hop where
  group : EntityId
  rule : Rule
  deriving DecidableEq, Repr

/-- A user or group with the hops that it inherits over. -/
structure Member where
  id : EntityId
  hops : List Hop
  deriving DecidableEq, Repr

namespace Membership

/-- Whether permissions reach an entity over one of its incidents. -/
def admits (rules : RuleBook) (i : Incident) : Bool :=
  (rules.ruleFor i.relationshipType).propagates i.direction

/-- The membership hops from a member, by ascending relationship and group. -/
def hops (view : GraphView ε) (settings : Settings) (member : EntityId) :
    Except ε (List Hop) := do
  let incidents ← view.incidents member
  let memberships := incidents.filter fun i =>
    i.relationshipType.name == settings.membershipName && admits view.rules i
  return (sortBy Incident.ble memberships).map fun i =>
    ⟨i.other, view.rules.ruleFor i.relationshipType⟩

/-- A member with the hops that lead to a group outside `known`, the groups that are no deeper
than the member itself. -/
def deeper (view : GraphView ε) (settings : Settings) (known : EntitySet) (member : EntityId) :
    Except ε Member := do
  let found ← hops view settings member
  return ⟨member, found.filter fun hop => hop.group ∉ known⟩

/-- A member at the greatest depth: its hops are looked up, but none is taken. -/
def deepest (view : GraphView ε) (settings : Settings) (member : EntityId) :
    Except ε Member := do
  let _ ← hops view settings member
  return ⟨member, []⟩

/-- The groups that the members of one level inherit from, each once, in the order found. -/
def nextLevel (members : List Member) : List EntityId :=
  (members.flatMap fun m => m.hops.map Hop.group).eraseDups

/-- The members from one level on, level by level. `known` holds the members of this level and of
those before; the first argument says how many levels may follow. -/
def levels (view : GraphView ε) (settings : Settings) :
    Nat → EntitySet → List EntityId → Except ε (List Member)
  | _, _, [] => .ok []
  | 0, _, level => level.mapM (deepest view settings)
  | depth + 1, known, level => do
    let members ← level.mapM (deeper view settings known)
    let next := nextLevel members
    let rest ← levels view settings depth (next.foldl .insert known) next
    return members ++ rest

/-- A user and its groups, deepest first. -/
def closure (view : GraphView ε) (settings : Settings) (user : EntityId) :
    Except ε (List Member) := do
  let members ← levels view settings settings.maxGroupDepth {user} [user]
  return members.reverse

/-- What arrives over some hops when their groups hold `held`. -/
def combine (granted : PermissionSet) (hops : List Hop) (held : EntityId → PermissionSet) :
    PermissionSet :=
  let added := .sum (hops.map fun hop => hop.rule.added (held hop.group))
  let removed := .sum (hops.map fun hop => hop.rule.removed (held hop.group))
  (granted ∪ added) \ removed

theorem holds_combine (granted : PermissionSet) (hops : List Hop) (held : EntityId → PermissionSet)
    (k : Permission) :
    (combine granted hops held).holds k =
      ((granted.holds k
          || hops.any fun hop => (held hop.group).holds k && hop.rule.effect k == .add)
        && !hops.any fun hop => (held hop.group).holds k && hop.rule.effect k == .remove) := by
  simp [combine, List.any_map, Function.comp_def, Rule.holds_added, Rule.holds_removed]

/-- Evaluates members in order, after those whose permissions are already known. -/
def evaluate (view : GraphView ε) (entity : EntityId) :
    List Member → EntityMap PermissionSet → Except ε (EntityMap PermissionSet)
  | [], held => .ok held
  | m :: rest, held => do
    let granted ← view.granted m.id entity
    evaluate view entity rest (held.insert m.id (combine granted m.hops (held.getD · ∅)))

/-- What a user holds on an entity through its own grants and those of its groups. -/
def inherited (view : GraphView ε) (members : List Member) (user entity : EntityId) :
    Except ε PermissionSet := do
  let held ← evaluate view entity members ∅
  return held.getD user ∅

theorem mem_nextLevel {members : List Member} {group : EntityId} :
    group ∈ nextLevel members ↔ ∃ m ∈ members, ∃ hop ∈ m.hops, hop.group = group := by
  simp [nextLevel, List.mem_eraseDups]

end Membership
end PermissionGraph
