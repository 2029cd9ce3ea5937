import PermissionGraph.Graph.Entity
import PermissionGraph.Order.Sort

/-!
# PermissionGraph.Store.Adjacency

An index of a graph: for each node the relationships that begin and those that end there, and for
each relationship its endpoints.

* `directed_alter`: what a node has in one direction after an alteration; inserting and removing a
  relationship each alter both its ends.
* `mem_touching_iff`, `pairwise_touching`: what touches a node is listed in order and without
  repetitions, although a relationship from a node to itself is noted at both its ends.
-/

namespace PermissionGraph

open Std

/-- The relationships of a node, latest first. -/
structure Ends where
  outgoing : List EntityId := []
  incoming : List EntityId := []
  deriving DecidableEq

/-- Which relationships begin and end at which nodes. -/
structure Adjacency where
  nodes : EntityMap Ends := ∅
  relationships : EntityMap (EntityId × EntityId) := ∅
  deriving DecidableEq

namespace Ends

def directed (ends : Ends) : Direction → List EntityId
  | .outgoing => ends.outgoing
  | .incoming => ends.incoming

def alter (ends : Ends) (f : List EntityId → List EntityId) : Direction → Ends
  | .outgoing => { ends with outgoing := f ends.outgoing }
  | .incoming => { ends with incoming := f ends.incoming }

theorem directed_alter (ends : Ends) (f : List EntityId → List EntityId) (d d' : Direction) :
    (ends.alter f d).directed d' = if d = d' then f (ends.directed d') else ends.directed d' := by
  cases d <;> cases d' <;> rfl

end Ends

namespace Adjacency

instance : EmptyCollection Adjacency := ⟨{}⟩
instance : Inhabited Adjacency := ⟨∅⟩

/-- The relationships that a node has in one direction: none for anything that is not a node. -/
def directed (a : Adjacency) (d : Direction) (id : EntityId) : List EntityId :=
  match a.nodes[id]? with
  | none => []
  | some ends => ends.directed d

/-- The relationships touching a node, ascending. -/
def touching (a : Adjacency) (id : EntityId) : List EntityId :=
  (sortBy EntityId.ble (a.directed .outgoing id ++ a.directed .incoming id)).eraseReps

/-- Adds a node without relationships. -/
def insertNode (a : Adjacency) (id : EntityId) : Adjacency :=
  { a with nodes := a.nodes.insert id {} }

/-- Removes a node whose relationships are removed. -/
def removeNode (a : Adjacency) (id : EntityId) : Adjacency :=
  { a with nodes := a.nodes.erase id }

/-- Alters what a node has in one direction. -/
def alter (a : Adjacency) (d : Direction) (id : EntityId) (f : List EntityId → List EntityId) :
    Adjacency :=
  { a with nodes := a.nodes.modify id (·.alter f d) }

def insertRelationship (a : Adjacency) (id source target : EntityId) : Adjacency where
  nodes := ((a.alter .outgoing source (id :: ·)).alter .incoming target (id :: ·)).nodes
  relationships := a.relationships.insert id (source, target)

def removeRelationship (a : Adjacency) (id : EntityId) : Adjacency :=
  match a.relationships[id]? with
  | none => a
  | some (source, target) =>
    { nodes := ((a.alter .outgoing source (·.filter (· != id))).alter .incoming target
        (·.filter (· != id))).nodes
      relationships := a.relationships.erase id }

variable {a : Adjacency} {id source target node r : EntityId} {d : Direction}

/-! ## Listing -/

theorem mem_touching_iff :
    r ∈ a.touching id ↔ r ∈ a.directed .outgoing id ∨ r ∈ a.directed .incoming id := by
  rw [touching, mem_eraseReps, mem_sortBy, List.mem_append]

/-- What is listed ascends, so nothing is listed twice. -/
theorem pairwise_touching (a : Adjacency) (id : EntityId) :
    (a.touching id).Pairwise fun r r' => compare r r' = .lt := by
  have hsorted := @pairwise_sortBy _ EntityId.ble
    (fun _ _ _ h h' => EntityId.ble_iff.mpr
      (Nat.le_trans (EntityId.ble_iff.mp h) (EntityId.ble_iff.mp h')))
    (fun _ _ => by rw [EntityId.ble_iff, EntityId.ble_iff]; exact Nat.le_total _ _)
    (a.directed .outgoing id ++ a.directed .incoming id)
  refine (pairwise_eraseReps (fun _ _ => EntityId.eq_of_ble) hsorted).imp fun {r r'} hr => ?_
  have hne : r.number ≠ r'.number := by
    cases r
    cases r'
    exact fun h => hr.2 (congrArg EntityId.mk h)
  exact Nat.compare_eq_lt.mpr (Nat.lt_of_le_of_ne (EntityId.ble_iff.mp hr.1) hne)

/-! ## Altering -/

@[simp] theorem mem_nodes_alter {f : List EntityId → List EntityId} :
    node ∈ (a.alter d id f).nodes ↔ node ∈ a.nodes :=
  ExtTreeMap.mem_modify

theorem directed_alter (a : Adjacency) (d d' : Direction) (id node : EntityId)
    (f : List EntityId → List EntityId) : (a.alter d id f).directed d' node =
      if d = d' ∧ node = id ∧ node ∈ a.nodes then f (a.directed d' node)
      else a.directed d' node := by
  have halter : (a.alter d id f).nodes = a.nodes.modify id (·.alter f d) := rfl
  by_cases h : node = id
  · subst h
    have hmem : node ∈ a.nodes ↔ (a.nodes[node]?).isSome = true :=
      ExtTreeMap.mem_iff_isSome_getElem?
    rw [directed, directed, halter, ExtTreeMap.getElem?_modify_self]
    cases hnode : a.nodes[node]? with
    | none => simp [hmem, hnode]
    | some ends => simp [hmem, hnode, Ends.directed_alter]
  · have hne : compare id node ≠ .eq := fun heq => h (compare_eq_iff_eq.mp heq).symm
    rw [directed, directed, halter, ExtTreeMap.getElem?_modify, if_neg hne,
      if_neg fun hand => h hand.2.1]

theorem directed_empty (d : Direction) (id : EntityId) : (∅ : Adjacency).directed d id = [] := by
  have h : (∅ : Adjacency).nodes = ∅ := rfl
  simp [directed, h]

theorem directed_insertNode (a : Adjacency) (id : EntityId) (d : Direction) (node : EntityId) :
    (a.insertNode id).directed d node = if id = node then [] else a.directed d node := by
  have hinsert : (a.insertNode id).nodes = a.nodes.insert id {} := rfl
  rw [directed, directed, hinsert, ExtTreeMap.getElem?_insert]
  by_cases h : id = node
  · cases d <;> simp [h, Ends.directed]
  · simp [h]

theorem directed_removeNode (a : Adjacency) (id : EntityId) (d : Direction) (node : EntityId) :
    (a.removeNode id).directed d node = if id = node then [] else a.directed d node := by
  have hremove : (a.removeNode id).nodes = a.nodes.erase id := rfl
  rw [directed, directed, hremove, ExtTreeMap.getElem?_erase]
  by_cases h : id = node <;> simp [h]

theorem mem_nodes_insertRelationship :
    node ∈ (a.insertRelationship id source target).nodes ↔ node ∈ a.nodes := by
  simp [insertRelationship]

/-- A relationship is noted at each of its ends in the direction in which it is seen from there. -/
theorem mem_directed_insertRelationship :
    r ∈ (a.insertRelationship id source target).directed d node ↔
      r ∈ a.directed d node ∨ r = id ∧ node = d.nearEnd source target ∧ node ∈ a.nodes := by
  show r ∈ ((a.alter .outgoing source (id :: ·)).alter .incoming target (id :: ·)).directed d node ↔
    _
  simp only [directed_alter, mem_nodes_alter]
  cases d with
  | outgoing =>
    by_cases h : node = source ∧ node ∈ a.nodes
    · simp [Direction.nearEnd, h.1 ▸ h.2, h.1, or_comm]
    · simp [Direction.nearEnd, h]
  | incoming =>
    by_cases h : node = target ∧ node ∈ a.nodes
    · simp [Direction.nearEnd, h.1 ▸ h.2, h.1, or_comm]
    · simp [Direction.nearEnd, h]

theorem mem_nodes_removeRelationship :
    node ∈ (a.removeRelationship id).nodes ↔ node ∈ a.nodes := by
  rw [removeRelationship]
  split <;> simp

theorem directed_eq_nil (h : node ∉ a.nodes) : a.directed d node = [] := by
  rw [directed, ExtTreeMap.getElem?_eq_none h]

/-- Removing a relationship takes it away from its ends and leaves all other relationships. -/
theorem mem_directed_removeRelationship (h : a.relationships[id]? = some (source, target)) :
    r ∈ (a.removeRelationship id).directed d node ↔
      r ∈ a.directed d node ∧ ¬ (r = id ∧ node = d.nearEnd source target) := by
  have hremove : (a.removeRelationship id).directed d node =
      ((a.alter .outgoing source (·.filter (· != id))).alter .incoming target
        (·.filter (· != id))).directed d node := by
    rw [removeRelationship, h]
    rfl
  simp only [hremove, directed_alter, mem_nodes_alter]
  by_cases hnode : node ∈ a.nodes
  · cases d with
    | outgoing =>
      by_cases h : node = source
      · simp [Direction.nearEnd, h.symm, hnode]
      · simp [Direction.nearEnd, h]
    | incoming =>
      by_cases h : node = target
      · simp [Direction.nearEnd, h.symm, hnode]
      · simp [Direction.nearEnd, h]
  · simp [hnode, directed_eq_nil hnode]

end Adjacency
end PermissionGraph
