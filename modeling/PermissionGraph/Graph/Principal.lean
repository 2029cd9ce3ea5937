import PermissionGraph.Graph.Entity

/-!
# PermissionGraph.Graph.Principal

On whose behalf permissions are asked for. Principals are ordered: the anonymous one, then users by
identifier, then the superuser.
-/

namespace PermissionGraph

open Std

/-- The identity on whose behalf a permission is asked for. -/
inductive Principal where
  /-- Nobody in particular. -/
  | anonymous
  /-- A user or group, standing in the graph as a node. -/
  | user (id : EntityId)
  /-- An administrator that does not stand in the graph. -/
  | superuser
  deriving DecidableEq, Repr

namespace Principal

/-- The node of a principal that stands in the graph. -/
def id? : Principal → Option EntityId
  | user id => some id
  | anonymous | superuser => none

def toText : Principal → String
  | anonymous => "anonymous"
  | user id => "user " ++ id.toText
  | superuser => "superuser"

/-- Anonymous before users before the superuser. -/
def rank : Principal → Nat
  | anonymous => 0
  | user _ => 1
  | superuser => 2

instance : Ord Principal := ⟨compareLex (compareOn rank) (compareOn id?)⟩

instance : TransOrd Principal :=
  inferInstanceAs (TransCmp (compareLex (compareOn rank) (compareOn id?)))

instance : LawfulEqOrd Principal where
  eq_of_compare {a b} h := by
    obtain ⟨h₁, h₂⟩ := compareBoth_eq_iff.mp h
    rw [compareOn_eq_iff] at h₁ h₂
    cases a <;> cases b <;> simp_all [rank, id?]

/-- Whether one principal does not come after another. -/
def ble (a b : Principal) : Bool := (compare a b).isLE

end Principal
end PermissionGraph
