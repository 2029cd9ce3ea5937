import PermissionGraph.Graph.Entity

/-!
# PermissionGraph.Value.Path

Paths through a graph: nodes and relationships in turn, beginning and ending with a node.
-/

namespace PermissionGraph

structure Path where
  /-- Nodes at even positions, relationships at odd ones. -/
  elements : List EntityId
  deriving DecidableEq, Repr

namespace Path

def alternate {α : Type} : List α → List α
  | [] => []
  | [a] => [a]
  | a :: _ :: rest => a :: alternate rest

/-- The path that stays at a node. -/
def start (node : EntityId) : Path := ⟨[node]⟩

def hop (p : Path) (relationship node : EntityId) : Path :=
  ⟨p.elements ++ [relationship, node]⟩

/-- The path with the given elements; it needs an odd number of them. -/
def ofElements? (elements : List EntityId) : Option Path :=
  if elements.length % 2 = 0 then none else some ⟨elements⟩

def nodes (p : Path) : List EntityId := alternate p.elements

def relationships (p : Path) : List EntityId := alternate (p.elements.drop 1)

/-- The number of relationships. -/
def length (p : Path) : Nat := p.elements.length / 2

/-- Whether the path has no relationship. -/
def isEmpty (p : Path) : Bool := p.length == 0

theorem ofElements?_eq_some_iff {l : List EntityId} {p : Path} :
    ofElements? l = some p ↔ l.length % 2 = 1 ∧ p.elements = l := by
  rw [ofElements?]
  split
  · next h => simp [h]
  · next h =>
    have : l.length % 2 = 1 := by omega
    rw [Option.some_inj]
    constructor
    · rintro rfl
      exact ⟨this, rfl⟩
    · rintro ⟨_, rfl⟩
      rfl

@[simp] theorem length_start (node : EntityId) : (start node).length = 0 := by
  simp [length, start]

@[simp] theorem length_hop (p : Path) (relationship node : EntityId) :
    (p.hop relationship node).length = p.length + 1 := by
  simp [length, hop]

theorem alternate_append_pair {α : Type} (l : List α) (a b : α) (h : l.length % 2 = 1) :
    alternate (l ++ [a, b]) = alternate l ++ [b] := by
  fun_induction alternate l with
  | case1 => simp at h
  | case2 a => rfl
  | case3 a b rest ih =>
    have : rest.length % 2 = 1 := by simp at h; omega
    simp [alternate, ih this]

/-- Going on from a proper path adds the node at the end. -/
theorem nodes_hop {p : Path} (h : p.elements.length % 2 = 1) (relationship node : EntityId) :
    (p.hop relationship node).nodes = p.nodes ++ [node] :=
  alternate_append_pair _ _ _ h

end Path
end PermissionGraph
