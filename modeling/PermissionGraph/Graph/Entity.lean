import PermissionGraph.Order.Fields
import Std.Data.ExtTreeMap
import Std.Data.ExtTreeSet

/-!
# PermissionGraph.Graph.Entity

Entities of a property graph. An entity is a node or a relationship between two entities; both
have an identifier, and one counter serves both. A table of entities is keyed by identifier, so an
`Entity` holds what is stored under its identifier and not the identifier itself.

* `EntityId`, ordered by number.
* `RelationshipType`: the name of a relationship with the types of its endpoints, ordered by
  name, then source type, then target type.
* `Incident`: a relationship as it is seen from one of its endpoints.
-/

namespace PermissionGraph

open Std

structure EntityId where
  number : Nat
  deriving DecidableEq, Repr

namespace EntityId

instance : Ord EntityId := ⟨compareOn number⟩

instance : TransOrd EntityId := inferInstanceAs (TransCmp (compareOn number))

instance : LawfulEqOrd EntityId where
  eq_of_compare {a b} h := by
    have : a.number = b.number := compareOn_eq_iff.mp h
    cases a; cases b; exact congrArg _ this

/-- Whether one identifier does not come after another. -/
def ble (a b : EntityId) : Bool := Nat.ble a.number b.number

def toText (id : EntityId) : String := "#" ++ toString id.number

theorem ble_iff {a b : EntityId} : a.ble b = true ↔ a.number ≤ b.number := by
  rw [ble, Nat.ble_eq]

theorem eq_of_ble {a b : EntityId} (h : a.ble b = true) (h' : b.ble a = true) : a = b := by
  cases a
  cases b
  exact congrArg mk (Nat.le_antisymm (ble_iff.mp h) (ble_iff.mp h'))

end EntityId

abbrev EntitySet := ExtTreeSet EntityId

abbrev EntityMap (α : Type) := ExtTreeMap EntityId α

inductive EntityKind where
  | node
  | relationship (source target : EntityId)
  deriving DecidableEq, Repr

/-- Flags that make an entity readable without a grant. -/
structure Visibility where
  /-- Readable by everyone. -/
  isPublic : Bool := false
  /-- Readable by everyone who is not anonymous. -/
  isAuthenticated : Bool := false
  deriving DecidableEq, Repr

namespace Visibility

/-- Readable by everyone. -/
def everyone : Visibility := ⟨true, false⟩

/-- Readable by everyone who is not anonymous. -/
def authenticated : Visibility := ⟨false, true⟩

end Visibility

/-- What is stored under an identifier. -/
structure Entity where
  /-- The declared type: of a relationship, its name. -/
  typeName : String
  kind : EntityKind
  /-- The node that holds every permission on the entity. -/
  owner : Option EntityId := none
  visibility : Visibility := {}
  /-- Whether the node, acting as a principal, is exempt from every check. -/
  isAdmin : Bool := false
  deriving DecidableEq, Repr

namespace Entity

def node (typeName : String) : Entity := { typeName, kind := .node }

def relationship (typeName : String) (source target : EntityId) : Entity :=
  { typeName, kind := .relationship source target }

def isNode (e : Entity) : Bool :=
  match e.kind with
  | .node => true
  | .relationship .. => false

def endpoints? (e : Entity) : Option (EntityId × EntityId) :=
  match e.kind with
  | .node => none
  | .relationship source target => some (source, target)

end Entity

/-- How a relationship is seen from one of its endpoints. -/
inductive Direction where
  | outgoing
  | incoming
  deriving DecidableEq, Repr

namespace Direction

def name : Direction → String
  | outgoing => "Outgoing"
  | incoming => "Incoming"

/-- From which end of a relationship it is seen in a direction. -/
def nearEnd (source target : EntityId) : Direction → EntityId
  | outgoing => source
  | incoming => target

end Direction

/-- The name of a relationship with the types of its endpoints. -/
structure RelationshipType where
  name : String
  sourceType : String
  targetType : String
  deriving DecidableEq, Repr

namespace RelationshipType

instance : Ord RelationshipType :=
  ⟨compareLex (compareOn name) (compareLex (compareOn sourceType) (compareOn targetType))⟩

instance : TransOrd RelationshipType :=
  inferInstanceAs (TransCmp (compareLex (compareOn name)
    (compareLex (compareOn sourceType) (compareOn targetType))))

instance : LawfulEqOrd RelationshipType where
  eq_of_compare {a b} h := by
    obtain ⟨h₁, h₂₃⟩ := compareBoth_eq_iff.mp h
    obtain ⟨h₂, h₃⟩ := compareBoth_eq_iff.mp h₂₃
    rw [compareOn_eq_iff] at h₁ h₂ h₃
    cases a; cases b; simp_all

/-- Whether one type does not come after another. -/
def ble (a b : RelationshipType) : Bool := (compare a b).isLE

/-- The type as it is shown, as an arrow from source to target. -/
def toText (t : RelationshipType) : String :=
  "(" ++ t.sourceType ++ ")-[" ++ t.name ++ "]->(" ++ t.targetType ++ ")"

end RelationshipType

/-- A relationship touching an entity, as it is seen from there. -/
structure Incident where
  relationship : EntityId
  relationshipType : RelationshipType
  /-- Which end of the relationship the entity is. -/
  direction : Direction
  other : EntityId
  deriving DecidableEq, Repr

namespace Incident

/-- The order in which incidents are worked through: by relationship, then by other end. -/
def ble (a b : Incident) : Bool :=
  a.relationship.number < b.relationship.number
    || a.relationship == b.relationship && a.other.ble b.other

/-- The incidents that one relationship causes at an entity. A relationship from an entity to
itself is seen from both its ends, first as outgoing. -/
def ofRelationship (viewer relationship : EntityId) (type : RelationshipType)
    (source target : EntityId) : List Incident :=
  (if source = viewer then [⟨relationship, type, .outgoing, target⟩] else [])
    ++ (if target = viewer then [⟨relationship, type, .incoming, source⟩] else [])

theorem mem_ofRelationship {i : Incident} {viewer relationship : EntityId} {type : RelationshipType}
    {source target : EntityId} :
    i ∈ ofRelationship viewer relationship type source target ↔
      (source = viewer ∧ i = ⟨relationship, type, .outgoing, target⟩)
        ∨ (target = viewer ∧ i = ⟨relationship, type, .incoming, source⟩) := by
  rw [ofRelationship, List.mem_append]
  by_cases hs : source = viewer <;> by_cases ht : target = viewer <;> simp [hs, ht]

end Incident
end PermissionGraph
