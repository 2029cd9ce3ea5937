import PermissionGraph.Access.Derivation

/-!
# PermissionGraph.Access.Component

Entities whose permissions hang on each other are resolved together. A component is a largest set
of entities each of which can be reached from each over inputs. Components come in an order in
which every one stands after those it hangs on: what a component reaches includes all that is
reached by what it hangs on, and more, so the sizes of what is reached put them in order.
-/

namespace PermissionGraph

/-- Entities to be resolved, each with its derivation. -/
abbrev Derivations := EntityMap Derivation

namespace Derivations

/-- The entities to be resolved whose permissions flow directly into an entity. -/
def next (ds : Derivations) (id : EntityId) : List EntityId :=
  match ds[id]? with
  | some d => d.origins.filter (ds.contains ·)
  | none => []

/-- Adds what can be reached from a stack, visiting one more entity in each round. -/
def visit (ds : Derivations) : Nat → List EntityId → EntitySet → EntitySet
  | 0, _, seen => seen
  | rounds + 1, stack, seen =>
    match stack.dropWhile (seen.contains ·) with
    | [] => seen
    | id :: stack => visit ds rounds (ds.next id ++ stack) (seen.insert id)

/-- What can be reached from an entity, itself included. -/
def reach (ds : Derivations) (id : EntityId) : EntitySet := ds.visit (ds.size + 1) [id] ∅

/-- For each entity, what can be reached from it. -/
def reaches (ds : Derivations) : EntityMap EntitySet := ds.map fun id _ => ds.reach id

/-- The entities on a common cycle with an entity, and the entity itself. -/
def around (reaches : EntityMap EntitySet) (id : EntityId) : EntitySet :=
  (reaches.getD id ∅).filter fun other => (reaches.getD other ∅).contains id

/-- The first entity of each component, those that reach less before those that reach more. -/
def leaders (ds : Derivations) (reaches : EntityMap EntitySet) : List EntityId :=
  sortBy (fun a b => (reaches.getD a ∅).size ≤ (reaches.getD b ∅).size)
    (ds.keys.filter fun id => (around reaches id).toList.head? == some id)

/-- The components, each after those that it hangs on. -/
def components (ds : Derivations) : List Derivations :=
  let reaches := ds.reaches
  (ds.leaders reaches).map fun leader =>
    let ids := around reaches leader
    ds.filter fun id _ => ids.contains id

theorem mem_next {ds : Derivations} {id other : EntityId} :
    other ∈ ds.next id ↔ ∃ d, ds[id]? = some d ∧ other ∈ d.origins ∧ other ∈ ds := by
  cases h : ds[id]? <;> simp [next, h]

theorem mem_around {reaches : EntityMap EntitySet} {id other : EntityId} :
    other ∈ around reaches id ↔
      other ∈ reaches.getD id ∅ ∧ id ∈ reaches.getD other ∅ := by
  simp [around]

@[simp] theorem getElem?_reaches (ds : Derivations) (id : EntityId) :
    ds.reaches[id]? = ds[id]?.map fun _ => ds.reach id := by
  simp [reaches]

end Derivations
end PermissionGraph
