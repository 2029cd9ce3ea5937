import PermissionGraph.Graph.Entity

/-!
# PermissionGraph.Settings

What an installation can choose about the resolution of permissions.
-/

namespace PermissionGraph

structure Settings where
  /-- How many membership hops are walked from a user to its groups. -/
  maxGroupDepth : Nat := 16
  /-- The name of the relationship from a group to its members. -/
  membershipName : String := "CONTAINS"
  /-- Whether a relationship can be read by those who can read both of its endpoints. -/
  readableFromEndpoints : Bool := true
  /-- Users that are administrators whatever their nodes say. -/
  superusers : EntitySet := ∅
  deriving DecidableEq

namespace Settings

def addSuperuser (s : Settings) (id : EntityId) : Settings :=
  { s with superusers := s.superusers.insert id }

end Settings
end PermissionGraph
