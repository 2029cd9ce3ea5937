/-!
# PermissionGraph.Order.Sort

Stable sorting by insertion. It recurses on the list alone, so that a closed term sorts by
reduction, and it is linear on a list that is already in order.

* `sortBy_perm`: nothing is lost or added.
* `pairwise_sortBy`: the result is in order, for a total and transitive order.
* `pairwise_eraseReps`: without repetitions, what is in order ascends strictly.
-/

namespace PermissionGraph

variable {α : Type}

/-- Puts an element in front of the first element that it may stand before. -/
def insertBy (le : α → α → Bool) (a : α) : List α → List α
  | [] => [a]
  | b :: l => if le a b then a :: b :: l else b :: insertBy le a l

/-- Sorts a list; elements that compare alike keep their order. -/
def sortBy (le : α → α → Bool) (l : List α) : List α := l.foldr (insertBy le) []

theorem insertBy_perm (le : α → α → Bool) (a : α) (l : List α) :
    (insertBy le a l).Perm (a :: l) := by
  induction l with
  | nil => exact .refl _
  | cons b l ih =>
    rw [insertBy]
    split
    · exact .refl _
    · exact (ih.cons b).trans (.swap a b l)

theorem sortBy_perm (le : α → α → Bool) (l : List α) : (sortBy le l).Perm l := by
  induction l with
  | nil => exact .refl _
  | cons a l ih => exact (insertBy_perm le a _).trans (ih.cons a)

@[simp] theorem mem_sortBy {le : α → α → Bool} {l : List α} {a : α} :
    a ∈ sortBy le l ↔ a ∈ l := (sortBy_perm le l).mem_iff

theorem pairwise_insertBy {le : α → α → Bool}
    (trans : ∀ a b c, le a b = true → le b c = true → le a c = true)
    (total : ∀ a b, le a b = true ∨ le b a = true) (a : α) {l : List α}
    (h : l.Pairwise (le · · = true)) : (insertBy le a l).Pairwise (le · · = true) := by
  induction l with
  | nil => simp [insertBy]
  | cons b l ih =>
    rw [List.pairwise_cons] at h
    rw [insertBy]
    split
    · next hab =>
      rw [List.pairwise_cons, List.pairwise_cons]
      refine ⟨fun c hc => ?_, h⟩
      rcases List.mem_cons.mp hc with rfl | hc
      · exact hab
      · exact trans _ _ _ hab (h.1 c hc)
    · next hab =>
      rw [List.pairwise_cons]
      refine ⟨fun c hc => ?_, ih h.2⟩
      rcases List.mem_cons.mp ((insertBy_perm le a l).mem_iff.mp hc) with rfl | hc
      · exact (total b c).resolve_right hab
      · exact h.1 c hc

theorem pairwise_sortBy {le : α → α → Bool}
    (trans : ∀ a b c, le a b = true → le b c = true → le a c = true)
    (total : ∀ a b, le a b = true ∨ le b a = true) (l : List α) :
    (sortBy le l).Pairwise (le · · = true) := by
  induction l with
  | nil => exact .nil
  | cons a l ih => exact pairwise_insertBy trans total a ih

/-! ## Repetitions -/

section Repetitions

variable [DecidableEq α] {a b : α} {l : List α}

theorem eraseReps_cons_cons (a b : α) (l : List α) :
    (a :: b :: l).eraseReps = if a = b then (b :: l).eraseReps else a :: (b :: l).eraseReps := by
  have hloop : ∀ (c : α) (acc : List α), List.eraseRepsBy.loop (· == ·) c l acc =
      acc.reverse ++ List.eraseRepsBy.loop (· == ·) c l [] := by
    induction l with
    | nil => simp [List.eraseRepsBy.loop]
    | cons d l ih =>
      intro c acc
      rw [List.eraseRepsBy.loop, List.eraseRepsBy.loop]
      cases c == d with
      | true => exact ih c acc
      | false =>
        dsimp only
        rw [ih d (c :: acc), ih d [c]]
        simp
  show List.eraseRepsBy.loop (· == ·) a (b :: l) [] = _
  rw [List.eraseRepsBy.loop]
  by_cases h : a = b
  · simp [h, List.eraseReps, List.eraseRepsBy]
  · have hne : (a == b) = false := beq_false_of_ne h
    simp [hne, h, List.eraseReps, List.eraseRepsBy, hloop b [a]]

@[simp] theorem mem_eraseReps : a ∈ l.eraseReps ↔ a ∈ l := by
  induction l with
  | nil => rfl
  | cons b l ih =>
    cases l with
    | nil => rfl
    | cons c l =>
      rw [eraseReps_cons_cons]
      split
      · next h => simp [ih, h]
      · simp [ih]

theorem pairwise_eraseReps {le : α → α → Bool}
    (antisymm : ∀ a b, le a b = true → le b a = true → a = b) (h : l.Pairwise (le · · = true)) :
    l.eraseReps.Pairwise fun a b => le a b = true ∧ a ≠ b := by
  induction l with
  | nil => exact .nil
  | cons a l ih =>
    cases l with
    | nil => exact List.pairwise_singleton _ _
    | cons b l =>
      obtain ⟨ha, hl⟩ := List.pairwise_cons.mp h
      rw [eraseReps_cons_cons]
      split
      · exact ih hl
      · next hab =>
        refine List.pairwise_cons.mpr ⟨fun c hc => ?_, ih hl⟩
        have hc := mem_eraseReps.mp hc
        refine ⟨ha c hc, ?_⟩
        -- an element that came back after another could not be in order with it
        rintro rfl
        have hba : le b a = true := by
          rcases List.mem_cons.mp hc with rfl | hmem
          · exact absurd rfl hab
          · exact (List.pairwise_cons.mp hl).1 a hmem
        exact hab (antisymm a b (ha b List.mem_cons_self) hba)

end Repetitions

end PermissionGraph
