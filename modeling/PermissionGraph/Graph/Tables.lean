import PermissionGraph.Graph.View
import PermissionGraph.Grants

/-!
# PermissionGraph.Graph.Tables

A graph given as plain tables, without any index: the relationships touching an entity are found by
going through all of them. Endpoints need not exist and may themselves be relationships. Some
look-ups can be made to fail.
-/

namespace PermissionGraph

/-- A look-up that tables refuse. -/
inductive Unavailable where
  | entity (id : EntityId)
  | incidents (id : EntityId)
  | grants (principal : EntityId)
  deriving DecidableEq, Repr

def Unavailable.message : Unavailable → String
  | entity id => "entity " ++ id.toText ++ " unavailable"
  | incidents id => "incidents of " ++ id.toText ++ " unavailable"
  | grants principal => "grants of " ++ principal.toText ++ " unavailable"

structure Tables where
  entities : EntityMap Entity := ∅
  grants : Grants := ∅
  rules : RuleBook := ∅
  /-- Whether incidents are listed in descending order. -/
  isReversed : Bool := false
  /-- Entities whose record can not be had. -/
  entityFails : EntitySet := ∅
  /-- Entities whose relationships can not be had. -/
  incidentsFail : EntitySet := ∅
  /-- Principals whose grants can not be had. -/
  grantsFail : EntitySet := ∅

namespace Tables

/-- The declared type of an entity, empty if there is none. -/
def typeName (entities : EntityMap Entity) (id : EntityId) : String :=
  match entities[id]? with
  | some e => e.typeName
  | none => ""

/-- The incidents that one row of the table causes at an entity. -/
def rowIncidents (entities : EntityMap Entity) (id : EntityId) (row : EntityId × Entity) :
    List Incident :=
  match row.2.endpoints? with
  | none => []
  | some (source, target) =>
    Incident.ofRelationship id row.1
      ⟨row.2.typeName, typeName entities source, typeName entities target⟩ source target

/-- The relationships touching an entity, by going through the whole table in ascending order. -/
def scan (entities : EntityMap Entity) (id : EntityId) : List Incident :=
  entities.toList.flatMap (rowIncidents entities id)

def view (t : Tables) : GraphView Unavailable where
  ids := t.entities.keys
  entity? id := if id ∈ t.entityFails then .error (.entity id) else .ok t.entities[id]?
  incidents id :=
    if id ∈ t.incidentsFail then .error (.incidents id)
    else
      let found := scan t.entities id
      .ok (if t.isReversed then found.reverse else found)
  granted principal entity :=
    if principal ∈ t.grantsFail then .error (.grants principal)
    else .ok (t.grants.lookup principal entity)
  rules := t.rules
  mem_ids {id e} h := by
    split at h
    · contradiction
    · injection h with h
      exact Std.ExtTreeMap.mem_keys.mpr (Std.ExtTreeMap.mem_iff_isSome_getElem?.mpr (by simp [h]))

/-- Makes every look-up succeed again. -/
def recover (t : Tables) : Tables :=
  { t with entityFails := ∅, incidentsFail := ∅, grantsFail := ∅ }

end Tables
end PermissionGraph
