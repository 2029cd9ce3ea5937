import PermissionGraph.Action
import PermissionGraph.Graph.Change
import PermissionGraph.Graph.View
import PermissionGraph.Grants
import PermissionGraph.Store.Adjacency
import PermissionGraph.Store.Error

/-!
# PermissionGraph.Store.Snapshot

One version of a graph, with its grants and rules. Relationships are looked up through an index
(`Adjacency`) that every write keeps in step with the table of entities.
-/

namespace PermissionGraph

open Std

/-- One version of a graph. -/
structure Snapshot where
  version : Nat := 0
  entities : EntityMap Entity := ∅
  adjacency : Adjacency := ∅
  grants : Grants := ∅
  rules : RuleBook := ∅
  deriving DecidableEq

namespace Snapshot

instance : EmptyCollection Snapshot := ⟨{}⟩
instance : Inhabited Snapshot := ⟨∅⟩

def entity? (s : Snapshot) (id : EntityId) : Option Entity := s.entities[id]?

def contains (s : Snapshot) (id : EntityId) : Bool := s.entities.contains id

def nodeCount (s : Snapshot) : Nat := s.adjacency.nodes.size

def relationshipCount (s : Snapshot) : Nat := s.adjacency.relationships.size

def requireNode (s : Snapshot) (id : EntityId) : Except StoreError Entity :=
  match s.entity? id with
  | none => .error (.entityNotFound id)
  | some e => if e.isNode then .ok e else .error (.notANode id)

/-- Looks up a node that is to act as a principal. -/
def requirePrincipal (s : Snapshot) (id : EntityId) : Except StoreError Entity :=
  match s.entity? id with
  | none => .error (.entityNotFound id)
  | some e => if e.isNode then .ok e else .error (.notAPrincipal id)

def requireEntity (s : Snapshot) (id : EntityId) : Except StoreError Entity :=
  match s.entity? id with
  | none => .error (.entityNotFound id)
  | some e => .ok e

/-- The declared type of an entity, empty if there is none. -/
def typeName (s : Snapshot) (id : EntityId) : String :=
  match s.entity? id with
  | some e => e.typeName
  | none => ""

/-- The incidents that one relationship causes at an entity. An index that names a relationship
that does not exist is found out here. -/
def incidentsOf (s : Snapshot) (id relationship : EntityId) : Except StoreError (List Incident) :=
  match s.entity? relationship with
  | none => .error (.entityNotFound relationship)
  | some e =>
    match e.endpoints? with
    | none => .ok []
    | some (source, target) =>
      .ok (Incident.ofRelationship id relationship
        ⟨e.typeName, s.typeName source, s.typeName target⟩ source target)

/-- The relationships touching an entity, by ascending identifier. -/
def incidents (s : Snapshot) (id : EntityId) : Except StoreError (List Incident) := do
  let found ← (s.adjacency.touching id).mapM (s.incidentsOf id)
  return found.flatten

def view (s : Snapshot) : GraphView StoreError where
  ids := s.entities.keys
  entity? id := .ok (s.entity? id)
  incidents := s.incidents
  granted principal entity := .ok (s.grants.lookup principal entity)
  rules := s.rules
  mem_ids {id e} h := by
    injection h with h
    have h : s.entities[id]? = some e := h
    exact ExtTreeMap.mem_keys.mpr (ExtTreeMap.mem_iff_isSome_getElem?.mpr (by simp [h]))

def insertNode (s : Snapshot) (id : EntityId) (typeName : String) : Snapshot :=
  { s with
    entities := s.entities.insert id (.node typeName)
    adjacency := s.adjacency.insertNode id }

/-- Adds a relationship under a fresh identifier. Both endpoints must be nodes. -/
def insertRelationship (id : EntityId) (e : Entity) : Action Snapshot StoreError Unit := do
  match e.endpoints? with
  | none => throw (.notANode id)
  | some (source, target) =>
    let s ← get
    let _ ← s.requireNode source
    let _ ← s.requireNode target
    set { s with
      entities := s.entities.insert id e
      adjacency := s.adjacency.insertRelationship id source target }

/-- Removes the record and the grants of an entity, and says what that changed. -/
def dropRecord (s : Snapshot) (id : EntityId) : List Change × Snapshot :=
  let (keys, grants) := s.grants.removeEntity id
  (keys.map (fun key => .grant key.principal key.entity) ++ [.entity id],
    { s with entities := s.entities.erase id, grants })

/-- Removes a relationship, and says what that changed. -/
def removeRelationship (s : Snapshot) (id source target : EntityId) : List Change × Snapshot :=
  let (changes, s) := { s with adjacency := s.adjacency.removeRelationship id }.dropRecord id
  (.relationship id source target :: changes, s)

/-- Removes a node whose relationships are removed, and says what that changed. -/
def removeNode (s : Snapshot) (id : EntityId) : List Change × Snapshot :=
  { s with adjacency := s.adjacency.removeNode id }.dropRecord id

/-- Removes the relationships in a list, one after the other, and says what that changed. The first
that does not exist ends it. -/
def removeRelationships : List EntityId → Action Snapshot StoreError (List Change)
  | [] => return []
  | id :: rest => do
    let e ← (← get).requireEntity id
    match e.endpoints? with
    | none => removeRelationships rest
    | some (source, target) =>
      let changes ← modifyGet (·.removeRelationship id source target)
      return changes ++ (← removeRelationships rest)

/-- Removes an entity with its grants and, if it is a node, its relationships; says what that
changed, relationships first. -/
def removeEntity (id : EntityId) : Action Snapshot StoreError (List Change) := do
  let s ← get
  let e ← s.requireEntity id
  match e.endpoints? with
  | some (source, target) => modifyGet (·.removeRelationship id source target)
  | none =>
    let changes ← removeRelationships (s.adjacency.touching id)
    return changes ++ (← modifyGet (·.removeNode id))

/-- Alters the record of an entity. -/
def modifyEntity (id : EntityId) (f : Entity → Entity) : Action Snapshot StoreError Unit := do
  let s ← get
  let e ← s.requireEntity id
  set { s with entities := s.entities.insert id (f e) }

theorem entity?_insertNode (s : Snapshot) (id other : EntityId) (typeName : String) :
    (s.insertNode id typeName).entity? other =
      if id = other then some (.node typeName) else s.entity? other := by
  simp [entity?, insertNode, ExtTreeMap.getElem?_insert]

theorem requireEntity_eq_ok_iff {s : Snapshot} {id : EntityId} {e : Entity} :
    s.requireEntity id = .ok e ↔ s.entity? id = some e := by
  cases h : s.entity? id <;> simp [requireEntity, h]

theorem requireNode_eq_ok_iff {s : Snapshot} {id : EntityId} {e : Entity} :
    s.requireNode id = .ok e ↔ s.entity? id = some e ∧ e.isNode = true := by
  cases h : s.entity? id with
  | none => simp [requireNode, h]
  | some found =>
    simp only [requireNode, h, Option.some_inj]
    split
    · next hn =>
      constructor
      · rintro ⟨rfl⟩
        exact ⟨rfl, hn⟩
      · rintro ⟨rfl, _⟩
        rfl
    · next hn =>
      constructor
      · intro e
        contradiction
      · rintro ⟨rfl, hn'⟩
        exact absurd hn' hn

theorem requirePrincipal_eq_ok_iff {s : Snapshot} {id : EntityId} {e : Entity} :
    s.requirePrincipal id = .ok e ↔ s.requireNode id = .ok e := by
  cases h : s.entity? id with
  | none => simp [requirePrincipal, requireNode, h]
  | some found => by_cases hn : found.isNode = true <;> simp [requirePrincipal, requireNode, h, hn]

end Snapshot
end PermissionGraph
