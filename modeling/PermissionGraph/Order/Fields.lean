import Std.Data.ExtTreeMap

/-!
# PermissionGraph.Order.Fields

Ordering records by their fields, the first field that differs deciding.
-/

namespace PermissionGraph

open Std

/-- Comparing by a field finds equal exactly what agrees in it. -/
theorem compareOn_eq_iff {α β : Type} [Ord β] [LawfulEqOrd β] {f : α → β} {a b : α} :
    compareOn f a b = .eq ↔ f a = f b :=
  ⟨LawfulEqOrd.eq_of_compare, fun h => by simp [compareOn, h, ReflOrd.compare_self]⟩

/-- Comparing by two keys, the second where the first is equal, finds equal exactly what both find
equal. -/
theorem compareBoth_eq_iff {α : Type} {first second : α → α → Ordering} {a b : α} :
    compareLex first second a b = .eq ↔ first a b = .eq ∧ second a b = .eq :=
  compareLex_eq_eq

end PermissionGraph
