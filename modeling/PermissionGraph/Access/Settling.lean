import PermissionGraph.Access.Component

/-!
# PermissionGraph.Access.Settling

Resolving a component. All members start from their bases and are then updated together, round by
round, until a round changes nothing. An entity on no cycle settles after one round. As long as
nothing is removed, every round but the last adds a kind to a member, which bounds the rounds; with
removals a cycle can oscillate, and then the kinds that still change fall back to the bases.

* `getElem?_round`: one round, member by member.
* `iterate_of_round_eq`: a round that changes nothing ends the iteration.
* `holds_withoutChanging`: what is left of a kind that changes and of one that does not.
-/

namespace PermissionGraph

/-- What each of some entities holds. -/
abbrev Holdings := EntityMap PermissionSet

namespace Settling

/-- What an entity holds: a member as in `x`, any other as it was resolved before. -/
def held (outside : EntityId → PermissionSet) (x : Holdings) (id : EntityId) : PermissionSet :=
  match x[id]? with
  | some s => s
  | none => outside id

def bases (members : Derivations) : Holdings := members.map fun _ d => d.base

/-- Updates every member, all at once. -/
def round (members : Derivations) (outside : EntityId → PermissionSet) (x : Holdings) : Holdings :=
  members.map fun _ d => d.combine (held outside x)

/-- What a member is left with whose kinds change from `last` to `next` without end: it keeps what
does not change, and of what does, its base. -/
def withoutChanging (base last next : PermissionSet) : PermissionSet :=
  let changing := last.symmDiff next
  (last \ changing) ∪ (base ∩ changing)

/-- What the members of an oscillating cycle are left with. -/
def fallback (members : Derivations) (outside : EntityId → PermissionSet) (x : Holdings) :
    Holdings :=
  let y := round members outside x
  members.map fun id d => withoutChanging d.base (x.getD id ∅) (y.getD id ∅)

/-- Updates until a round changes nothing, or for a number of rounds. -/
def iterate (members : Derivations) (outside : EntityId → PermissionSet) :
    Nat → Holdings → Holdings
  | 0, x => fallback members outside x
  | rounds + 1, x =>
    let y := round members outside x
    if y = x then x else iterate members outside rounds y

/-- The number of rounds after which a cycle that adds only has settled: one for each kind on each
member, and one that changes nothing. -/
def bound (members : Derivations) : Nat := members.size * Permission.all.length + 1

/-- What the members of a component hold. -/
def settle (members : Derivations) (outside : EntityId → PermissionSet) : Holdings :=
  iterate members outside (bound members) (bases members)

@[simp] theorem getElem?_bases (members : Derivations) (id : EntityId) :
    (bases members)[id]? = members[id]?.map (·.base) := by
  simp [bases]

@[simp] theorem getElem?_round (members : Derivations) (outside : EntityId → PermissionSet)
    (x : Holdings) (id : EntityId) :
    (round members outside x)[id]? = members[id]?.map (·.combine (held outside x)) := by
  simp [round]

theorem iterate_of_round_eq {members : Derivations} {outside : EntityId → PermissionSet}
    {x : Holdings} (h : round members outside x = x) (rounds : Nat) :
    iterate members outside (rounds + 1) x = x := by
  simp [iterate, h]

theorem iterate_succ {members : Derivations} {outside : EntityId → PermissionSet}
    {x : Holdings} (rounds : Nat) (h : round members outside x ≠ x) :
    iterate members outside (rounds + 1) x =
      iterate members outside rounds (round members outside x) := by
  simp [iterate, h]

theorem holds_withoutChanging (base last next : PermissionSet) (k : Permission) :
    (withoutChanging base last next).holds k =
      if last.holds k = next.holds k then last.holds k else base.holds k := by
  simp only [withoutChanging, PermissionSet.holds_union, PermissionSet.holds_sdiff,
    PermissionSet.holds_inter, PermissionSet.holds_symmDiff]
  cases last.holds k <;> cases next.holds k <;> simp

end Settling
end PermissionGraph
