import PermissionGraph.Document.Basic
import PermissionGraph.Graph.Change
import PermissionGraph.Graph.Principal

/-!
# PermissionGraph.Document.Graph

How the nouns of a graph stand in documents: identifiers, principals, relationship types and
changes.
-/

namespace PermissionGraph

namespace EntityId

/-- Reads an identifier: an unsigned integer of 64 bits. -/
def ofDocument? (d : Document) : Option EntityId := d.asNat64?.map mk

def toDocument (id : EntityId) : Document := .integer id.number

theorem ofDocument?_toDocument {id : EntityId} (h : id.number < 0x10000000000000000) :
    ofDocument? id.toDocument = some id := by
  simp [ofDocument?, toDocument, Document.asNat64?]
  omega

end EntityId

namespace Principal

def ofDocument? (d : Document) : Option Principal := do
  let (name, content) ← d.asChoice?
  match name with
  | "Anonymous" => content.asNull?.map fun _ => anonymous
  | "User" => (EntityId.ofDocument? content).map user
  | "Superuser" => content.asNull?.map fun _ => superuser
  | _ => none

def toDocument : Principal → Document
  | anonymous => .string "Anonymous"
  | user id => .object [("User", id.toDocument)]
  | superuser => .string "Superuser"

end Principal

namespace RelationshipType

def ofDocument? (d : Document) : Option RelationshipType := do
  let fields ← d.asObject?
  let name ← Document.field? fields "name" Document.asString?
  let sourceType ← Document.field? fields "source_type" Document.asString?
  let targetType ← Document.field? fields "target_type" Document.asString?
  return { name, sourceType, targetType }

end RelationshipType

namespace Change

/-- Reads a change: a choice of four cases, of which three carry a record. -/
def ofDocument? (d : Document) : Option Change := do
  let (name, content) ← d.asChoice?
  match name with
  | "Rules" => content.asNull?.map fun _ => rules
  | "Grant" =>
    let fields ← content.asObject?
    return grant (← Document.field? fields "principal" EntityId.ofDocument?)
      (← Document.field? fields "entity" EntityId.ofDocument?)
  | "Entity" =>
    let fields ← content.asObject?
    return entity (← Document.field? fields "id" EntityId.ofDocument?)
  | "Relationship" =>
    let fields ← content.asObject?
    return relationship (← Document.field? fields "id" EntityId.ofDocument?)
      (← Document.field? fields "source" EntityId.ofDocument?)
      (← Document.field? fields "target" EntityId.ofDocument?)
  | _ => none

def toDocument : Change → Document
  | grant principal on =>
    .object [("Grant",
      .object [("entity", on.toDocument), ("principal", principal.toDocument)])]
  | entity id => .object [("Entity", .object [("id", id.toDocument)])]
  | relationship id source target =>
    .object [("Relationship",
      .object [("id", id.toDocument), ("source", source.toDocument),
        ("target", target.toDocument)])]
  | rules => .string "Rules"

end Change
end PermissionGraph
