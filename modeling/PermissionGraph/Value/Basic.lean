import PermissionGraph.Value.Path

/-!
# PermissionGraph.Value.Basic

Values that a query returns: entities, paths and scalars, nested in lists and maps.
-/

namespace PermissionGraph

/-- A number with a fraction, as it was written: `mantissa` shifted by `places` decimal places. -/
structure Decimal where
  mantissa : Int
  places : Nat
  deriving DecidableEq, Repr

inductive Scalar where
  | null
  | bool (b : Bool)
  | integer (n : Int)
  | decimal (d : Decimal)
  | string (s : String)
  deriving DecidableEq, Repr

/-- A value that a query returns. -/
inductive Value where
  | entity (id : EntityId)
  | list (items : List Value)
  | path (p : Path)
  /-- Entries by ascending key. -/
  | map (entries : List (String × Value))
  | scalar (s : Scalar)
  deriving Inhabited, Repr

namespace Value

/-- The value that stands for nothing. -/
def null : Value := scalar .null

def isEntity : Value → Bool
  | entity _ => true
  | list _ | path _ | map _ | scalar _ => false

def isNull : Value → Bool
  | scalar .null => true
  | _ => false

end Value
end PermissionGraph
