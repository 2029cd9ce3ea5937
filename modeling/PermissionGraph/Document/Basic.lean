import PermissionGraph.Value.Basic

/-!
# PermissionGraph.Document.Basic

Documents: trees of the kind that a data file holds, before they are given a meaning. Reading a
piece of a document gives `none` where it does not have the form asked for.

Three forms recur. A *record* is an object whose fields are read by name, in any order; fields that
nobody asks for do not matter. A *choice* is either a word alone or an object with a single field,
whose name says which case it is and whose value is what the case carries. A case that carries
nothing may be written in both ways, the second with null.
-/

namespace PermissionGraph

inductive Document where
  | null
  | bool (b : Bool)
  | integer (n : Int)
  | decimal (d : Decimal)
  | string (s : String)
  | list (items : List Document)
  /-- Fields by ascending name. -/
  | object (fields : List (String × Document))
  deriving Inhabited, Repr

namespace Document

def asBool? : Document → Option Bool
  | bool b => some b
  | _ => none

def asString? : Document → Option String
  | string s => some s
  | _ => none

def asList? : Document → Option (List Document)
  | list items => some items
  | _ => none

def asObject? : Document → Option (List (String × Document))
  | object fields => some fields
  | _ => none

/-- Reads an unsigned integer of 64 bits. A number with a fraction is none, even a zero one. -/
def asNat64? : Document → Option Nat
  | integer n => if 0 ≤ n ∧ n < 0x10000000000000000 then some n.toNat else none
  | _ => none

def asInt64? : Document → Option Int
  | integer n => if -0x8000000000000000 ≤ n ∧ n < 0x8000000000000000 then some n else none
  | _ => none

/-- Reads a number that may have a fraction. -/
def asDecimal? : Document → Option Decimal
  | integer n => some ⟨n, 0⟩
  | decimal d => some d
  | _ => none

def asListOf? {α : Type} (read : Document → Option α) (d : Document) : Option (List α) := do
  (← d.asList?).mapM read

/-- Reads a thing, or null for no thing. -/
def asOptional? {α : Type} (read : Document → Option α) : Document → Option (Option α)
  | null => some none
  | d => (read d).map some

def asNull? : Document → Option Unit
  | null => some ()
  | _ => none

def field? {α : Type} (fields : List (String × Document)) (name : String)
    (read : Document → Option α) : Option α := do
  read (← fields.lookup name)

/-- A field of a record that stands for `default` when it is left out. -/
def fieldD? {α : Type} (fields : List (String × Document)) (name : String)
    (read : Document → Option α) (default : α) : Option α :=
  match fields.lookup name with
  | none => some default
  | some d => read d

/-- Reads a choice: the name of the case and what it carries. -/
def asChoice? : Document → Option (String × Document)
  | string name => some (name, null)
  | object [(name, content)] => some (name, content)
  | _ => none

end Document
end PermissionGraph
