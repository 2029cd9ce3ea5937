import Std.Data.ExtTreeMap

/-!
# PermissionGraph.Proofs.Order.Fold

Putting one table into another, entry by entry. Tables differ in what they are made of; all that
matters is that looking up after putting finds what was put, and else what was there before.
-/

namespace PermissionGraph

open Std

section Fold

variable {σ κ α β : Type} [DecidableEq κ] {get : σ → κ → Option β} {put : σ → κ → α → σ}
  {f : α → β}

/-- After putting a list whose keys have one value each, a key of the list has that value, and any
other what it had before. -/
theorem get_foldl_list (hput : ∀ s k v other, get (put s k v) other =
      if k = other then some (f v) else get s other)
    {l : List (κ × α)} (hl : ∀ k v w, (k, v) ∈ l → (k, w) ∈ l → v = w) (s : σ) (k : κ) :
    (∀ v, (k, v) ∈ l → get (l.foldl (fun s p => put s p.1 p.2) s) k = some (f v)) ∧
      ((∀ v, (k, v) ∉ l) → get (l.foldl (fun s p => put s p.1 p.2) s) k = get s k) := by
  induction l generalizing s with
  | nil => simp
  | cons p l ih =>
    have hl' : ∀ k v w, (k, v) ∈ l → (k, w) ∈ l → v = w := by
      intro k v w hv hw
      exact hl k v w (List.mem_cons_of_mem p hv) (List.mem_cons_of_mem p hw)
    obtain ⟨ih₁, ih₂⟩ := ih hl' (put s p.1 p.2)
    rw [List.foldl_cons]
    constructor
    · intro v hv
      by_cases hw : ∃ w, (k, w) ∈ l
      · obtain ⟨w, hw⟩ := hw
        rw [ih₁ w hw, hl k v w hv (List.mem_cons_of_mem p hw)]
      · rcases List.mem_cons.mp hv with rfl | hv
        · rw [ih₂ fun w h => hw ⟨w, h⟩, hput, if_pos rfl]
        · exact absurd ⟨v, hv⟩ hw
    · intro hk
      have hne : p.1 ≠ k := by
        rintro rfl
        exact hk p.2 List.mem_cons_self
      rw [ih₂ fun v hv => hk v (List.mem_cons_of_mem p hv), hput, if_neg hne]

theorem get_foldl [Ord κ] [TransOrd κ] [LawfulEqOrd κ]
    (hput : ∀ s k v other, get (put s k v) other = if k = other then some (f v) else get s other)
    (m : ExtTreeMap κ α) (s : σ) (k : κ) :
    get (m.foldl put s) k = (m[k]?.map f).or (get s k) := by
  rw [ExtTreeMap.foldl_eq_foldl_toList]
  have hl : ∀ k v w, (k, v) ∈ m.toList → (k, w) ∈ m.toList → v = w := by
    intro k v w hv hw
    rw [ExtTreeMap.mem_toList_iff_getElem?_eq_some] at hv hw
    exact Option.some_inj.mp (hv.symm.trans hw)
  obtain ⟨h₁, h₂⟩ := get_foldl_list hput hl s k
  cases hk : m[k]? with
  | none =>
    rw [h₂ fun v hv => by rw [ExtTreeMap.mem_toList_iff_getElem?_eq_some, hk] at hv; cases hv]
    rfl
  | some a => exact h₁ a (ExtTreeMap.mem_toList_iff_getElem?_eq_some.mpr hk)

end Fold
end PermissionGraph
