import PermissionGraph.Schema.Error

/-!
# PermissionGraph.Permission.Kind

The five kinds of permission that a principal can hold on an entity. The kinds are independent:
holding `write` does not imply holding `read`.

* `Permission.all`: every kind, in bit order.
* `Permission.parse`: reads the name of a kind; `parse_name` says that every written name is read
  back.
-/

namespace PermissionGraph

/-- A kind of permission on one entity. -/
inductive Permission where
  /-- See the entity. -/
  | read
  /-- Change the properties of the entity. -/
  | write
  /-- Delete the entity. -/
  | delete
  /-- Grant and revoke permissions on the entity. -/
  | accessControl
  /-- Create relationships to or from the entity. -/
  | link
  deriving DecidableEq, Repr

namespace Permission

def all : List Permission := [read, write, delete, accessControl, link]

theorem mem_all (k : Permission) : k ∈ all := by cases k <;> decide

def index : Permission → Nat
  | read => 0
  | write => 1
  | delete => 2
  | accessControl => 3
  | link => 4

theorem index_inj {a b : Permission} : a.index = b.index ↔ a = b := by
  cases a <;> cases b <;> decide

theorem index_lt (k : Permission) : k.index < 5 := by cases k <;> decide

def name : Permission → String
  | read => "read"
  | write => "write"
  | delete => "delete"
  | accessControl => "access_control"
  | link => "link"

/-- Reads a name. Case matters; access control has a second spelling. -/
def ofName? : String → Option Permission
  | "read" => some read
  | "write" => some write
  | "delete" => some delete
  | "access_control" => some accessControl
  | "accessControl" => some accessControl
  | "link" => some link
  | _ => none

def parse (word : String) : Except SchemaError Permission :=
  match ofName? word with
  | some kind => .ok kind
  | none => .error (.unknownPermission word)

theorem parse_name (k : Permission) : parse k.name = .ok k := by cases k <;> rfl

end Permission
end PermissionGraph
