import PermissionGraph.Access.Query
import PermissionGraph.Value.Basic

/-!
# PermissionGraph.Value.Filter

Reducing a value to what a principal may read. An entity that may not be read is dropped, and with
it the list element or map entry that it was; a path is kept or dropped as a whole, and leaves a
null behind in a map; everything else stays and keeps its order.
-/

namespace PermissionGraph

variable {ε : Type}

namespace Access

/-- Whether every one of some entities can be read. The first that can not ends the question. -/
def allVisible (a : Access ε) (principal : Principal) : List EntityId → Query ε Bool
  | [] => return true
  | id :: rest => do
    if ← a.isVisible principal id then allVisible a principal rest
    else return false

/-- What is left in a map of an entry whose value was reduced: no entry for a dropped entity, and
null for anything else that was dropped. -/
def leftover (key : String) (value : Value) : Option Value → List (String × Value)
  | some reduced => [(key, reduced)]
  | none => if value.isEntity then [] else [(key, .null)]

mutual

/-- What a principal may read of a value; `none` if that is nothing. -/
def filter (a : Access ε) (principal : Principal) : Value → Query ε (Option Value)
  | .entity id => do
    if ← a.isVisible principal id then return some (.entity id)
    else return none
  | .list items => do
    let items ← filterItems a principal items
    return some (.list items)
  | .path p => do
    if ← a.allVisible principal p.elements then return some (.path p)
    else return none
  | .map entries => do
    let entries ← filterEntries a principal entries
    return some (.map entries)
  | .scalar s => return some (.scalar s)

def filterItems (a : Access ε) (principal : Principal) : List Value → Query ε (List Value)
  | [] => return []
  | item :: rest => do
    let reduced ← filter a principal item
    let rest ← filterItems a principal rest
    return reduced.toList ++ rest

def filterEntries (a : Access ε) (principal : Principal) :
    List (String × Value) → Query ε (List (String × Value))
  | [] => return []
  | (key, value) :: rest => do
    let reduced ← filter a principal value
    let rest ← filterEntries a principal rest
    return leftover key value reduced ++ rest

end

end Access
end PermissionGraph
