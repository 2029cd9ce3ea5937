import PermissionGraph.Document.Graph

/-!
# PermissionGraph.Document.Value

How values and paths stand in documents. A value is a choice; whether a path alternates properly is
not looked at.
-/

namespace PermissionGraph

namespace Path

/-- Reads a path: a record of its elements, of which there may be any number. -/
def ofDocument? (d : Document) : Option Path := do
  let fields ← d.asObject?
  let elements ← Document.field? fields "elements" (Document.asListOf? EntityId.ofDocument?)
  return { elements }

def toDocument (p : Path) : Document :=
  .object [("elements", .list (p.elements.map EntityId.toDocument))]

end Path

namespace Scalar

def ofDocument? (d : Document) : Option Scalar := do
  let (name, content) ← d.asChoice?
  match name with
  | "Null" => content.asNull?.map fun _ => null
  | "Bool" => content.asBool?.map bool
  | "Integer" => content.asInt64?.map integer
  | "Float" => content.asDecimal?.map decimal
  | "String" => content.asString?.map string
  | _ => none

def toDocument : Scalar → Document
  | null => .string "Null"
  | bool b => .object [("Bool", .bool b)]
  | integer n => .object [("Integer", .integer n)]
  | decimal d => .object [("Float", .decimal d)]
  | string s => .object [("String", .string s)]

end Scalar

namespace Value

mutual

/-- Reads a value: a choice of five cases, each of which carries something. -/
def ofDocument? : Document → Option Value
  | .object [(name, content)] =>
    match name with
    | "Entity" => (EntityId.ofDocument? content).map entity
    | "List" =>
      match content with
      | .list items => (itemsOf? items).map list
      | _ => none
    | "Path" => (Path.ofDocument? content).map path
    | "Map" =>
      match content with
      | .object fields => (entriesOf? fields).map map
      | _ => none
    | "Primitive" => (Scalar.ofDocument? content).map scalar
    | _ => none
  | _ => none

def itemsOf? : List Document → Option (List Value)
  | [] => some []
  | d :: rest => do
    let item ← ofDocument? d
    let rest ← itemsOf? rest
    return item :: rest

def entriesOf? : List (String × Document) → Option (List (String × Value))
  | [] => some []
  | (key, d) :: rest => do
    let value ← ofDocument? d
    let rest ← entriesOf? rest
    return (key, value) :: rest

end

mutual

def toDocument : Value → Document
  | entity id => .object [("Entity", id.toDocument)]
  | list items => .object [("List", .list (itemsToDocuments items))]
  | path p => .object [("Path", p.toDocument)]
  | map entries => .object [("Map", .object (entriesToDocuments entries))]
  | scalar s => .object [("Primitive", s.toDocument)]

def itemsToDocuments : List Value → List Document
  | [] => []
  | item :: rest => toDocument item :: itemsToDocuments rest

def entriesToDocuments : List (String × Value) → List (String × Document)
  | [] => []
  | (key, value) :: rest => (key, toDocument value) :: entriesToDocuments rest

end

end Value
end PermissionGraph
