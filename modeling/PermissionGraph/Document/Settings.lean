import PermissionGraph.Document.Graph
import PermissionGraph.Settings

/-!
# PermissionGraph.Document.Settings

How settings stand in documents: as a record in which every field may be left out. What is left
out is as in the default settings.
-/

namespace PermissionGraph

namespace Settings

/-- Reads a set of users, given as a list in any order. -/
def usersOfDocument? (d : Document) : Option EntitySet := do
  return .ofList (← d.asListOf? EntityId.ofDocument?)

def ofDocument? (d : Document) : Option Settings := do
  let fields ← d.asObject?
  let default : Settings := {}
  return {
    maxGroupDepth :=
      ← Document.fieldD? fields "max_group_depth" Document.asNat64? default.maxGroupDepth
    membershipName :=
      ← Document.fieldD? fields "membership_relationship" Document.asString?
        default.membershipName
    readableFromEndpoints :=
      ← Document.fieldD? fields "relationship_visibility_from_endpoints" Document.asBool?
        default.readableFromEndpoints
    superusers :=
      ← Document.fieldD? fields "superusers" usersOfDocument? default.superusers }

def toDocument (s : Settings) : Document :=
  .object [
    ("max_group_depth", .integer s.maxGroupDepth),
    ("membership_relationship", .string s.membershipName),
    ("relationship_visibility_from_endpoints", .bool s.readableFromEndpoints),
    ("superusers", .list (s.superusers.toList.map EntityId.toDocument))]

end Settings
end PermissionGraph
