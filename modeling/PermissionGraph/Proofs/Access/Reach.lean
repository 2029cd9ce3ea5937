import Mathlib.Data.List.Perm.Subperm
import Mathlib.Data.List.TakeWhile
import Mathlib.Logic.Relation
import PermissionGraph.Access.Component

/-!
# PermissionGraph.Proofs.Access.Reach

What the permissions on an entity hang on, as a relation over a table of derivations. `Draws` is one
step from an entity to an origin of its permissions, `Reaches` any number of steps, and two
entities are `Tied` when each reaches the other.

* `reaches_congr`: what an entity reaches depends on the derivations of what it reaches only.
* `mem_reach`: the stack walk `Derivations.reach` finds exactly what is reached. Its
  rounds suffice because each adds one more of finitely many entities.
-/

namespace PermissionGraph

open Std

/-! ## Finite collections -/

theorem mem_insert_iff {s : EntitySet} {a x : EntityId} : x ∈ s.insert a ↔ a = x ∨ x ∈ s := by
  rw [ExtTreeSet.mem_insert, Std.compare_eq_iff_eq]

theorem getElem?_insert_eq {α : Type} (m : EntityMap α) (a x : EntityId) (v : α) :
    (m.insert a v)[x]? = if a = x then some v else m[x]? := by
  simp only [ExtTreeMap.getElem?_insert, Std.compare_eq_iff_eq]

theorem size_le_length {s : EntitySet} {l : List EntityId} (h : ∀ id ∈ s, id ∈ l) :
    s.size ≤ l.length := by
  have hnodup : s.toList.Nodup := s.distinct_toList.imp ReflCmp.ne_of_cmp_ne_eq
  have hsub : s.toList ⊆ l := by
    intro id hid
    exact h id (ExtTreeSet.mem_toList.mp hid)
  rw [← ExtTreeSet.length_toList]
  exact (List.subperm_of_subset hnodup hsub).length_le

theorem size_le_size {s t : EntitySet} (h : ∀ id ∈ s, id ∈ t) : s.size ≤ t.size := by
  rw [← t.length_toList]
  exact size_le_length fun id hid => ExtTreeSet.mem_toList.mpr (h id hid)

theorem size_lt_size {s t : EntitySet} (h : ∀ id ∈ s, id ∈ t) {x : EntityId} (hx : x ∈ t)
    (hxs : x ∉ s) : s.size < t.size := by
  have hins : (s.insert x).size ≤ t.size := by
    apply size_le_size
    intro id hid
    rcases mem_insert_iff.mp hid with rfl | hid
    · exact hx
    · exact h id hid
  rw [ExtTreeSet.size_insert, if_neg (by simpa using hxs)] at hins
  omega

theorem map_size_le_length {α : Type} {m : EntityMap α} {l : List EntityId}
    (h : ∀ id ∈ m, id ∈ l) : m.size ≤ l.length := by
  have hsub : m.keys ⊆ l := by
    intro id hid
    exact h id (ExtTreeMap.mem_keys.mp hid)
  rw [← ExtTreeMap.length_keys]
  exact (List.subperm_of_subset m.nodup_keys hsub).length_le

/-! ## Reaching -/

namespace Derivations

variable {D E ds : Derivations} {a b c id other : EntityId}

theorem mem_iff_getElem? : id ∈ ds ↔ ∃ d, ds[id]? = some d := by
  rw [ExtTreeMap.mem_iff_isSome_getElem?, Option.isSome_iff_exists]

theorem mem_of_getElem? {d : Derivation} (h : ds[id]? = some d) : id ∈ ds :=
  mem_iff_getElem?.mpr ⟨d, h⟩

/-- The permissions on one entity draw on those on another. -/
def Draws (D : Derivations) (a b : EntityId) : Prop := ∃ d, D[a]? = some d ∧ b ∈ d.origins

/-- The permissions on one entity hang on those on another, directly or not. -/
def Reaches (D : Derivations) : EntityId → EntityId → Prop := Relation.ReflTransGen D.Draws

/-- The permissions on two entities hang on each other. -/
def Tied (D : Derivations) (a b : EntityId) : Prop := D.Reaches a b ∧ D.Reaches b a

theorem Reaches.refl : D.Reaches a a := Relation.ReflTransGen.refl

theorem Reaches.trans (h₁ : D.Reaches a b) (h₂ : D.Reaches b c) : D.Reaches a c :=
  Relation.ReflTransGen.trans h₁ h₂

theorem Draws.reaches (h : D.Draws a b) : D.Reaches a b := Relation.ReflTransGen.single h

theorem Draws.mem (h : D.Draws a b) : a ∈ D := mem_of_getElem? h.choose_spec.1

theorem Tied.refl : D.Tied a a := ⟨.refl, .refl⟩

theorem Tied.symm (h : D.Tied a b) : D.Tied b a := ⟨h.2, h.1⟩

theorem Tied.trans (h₁ : D.Tied a b) (h₂ : D.Tied b c) : D.Tied a c :=
  ⟨h₁.1.trans h₂.1, h₂.2.trans h₁.2⟩

theorem Reaches.of_agree (h : ∀ y, D.Reaches a y → E[y]? = D[y]?) (hr : D.Reaches a b) :
    E.Reaches a b := by
  induction hr with
  | refl => exact .refl
  | @tail b c hab hbc ih =>
    obtain ⟨d, hd, hc⟩ := hbc
    have hb : E[b]? = some d := by rw [h b hab, hd]
    exact ih.trans (Draws.reaches ⟨d, hb, hc⟩)

theorem reaches_congr (h : ∀ y, D.Reaches a y → E[y]? = D[y]?) :
    E.Reaches a b ↔ D.Reaches a b := by
  constructor
  · intro hr
    induction hr with
    | refl => exact .refl
    | @tail b c _ hbc ih =>
      obtain ⟨d, hd, hc⟩ := hbc
      rw [h b ih] at hd
      exact ih.trans (Draws.reaches ⟨d, hd, hc⟩)
  · exact Reaches.of_agree h

theorem tied_congr (h : ∀ y, D.Reaches a y → E[y]? = D[y]?) : E.Tied a b ↔ D.Tied a b := by
  constructor
  · rintro ⟨hab, hba⟩
    have hab' := (reaches_congr h).mp hab
    exact ⟨hab', (reaches_congr fun y hy => h y (hab'.trans hy)).mp hba⟩
  · rintro ⟨hab, hba⟩
    exact ⟨hab.of_agree h, hba.of_agree fun y hy => h y (hab.trans hy)⟩

/-- What reaches another entity has a derivation. -/
theorem Reaches.mem_of_ne (h : D.Reaches a b) (hne : a ≠ b) : a ∈ D := by
  rcases Relation.ReflTransGen.cases_head h with rfl | ⟨c, hac, _⟩
  · exact absurd rfl hne
  · exact hac.mem

theorem mem_of_tied (h : a ∈ D) (ht : D.Tied a b) : b ∈ D := by
  by_cases he : b = a
  · rw [he]
    exact h
  · exact ht.2.mem_of_ne he

/-! ## Walking -/

theorem mem_next_iff : other ∈ ds.next id ↔ ds.Draws id other ∧ other ∈ ds := by
  rw [mem_next]
  constructor
  · rintro ⟨d, hd, ho, hmem⟩
    exact ⟨⟨d, hd, ho⟩, hmem⟩
  · rintro ⟨⟨d, hd, ho⟩, hmem⟩
    exact ⟨d, hd, ho, hmem⟩

theorem mem_of_dropWhile_eq_cons {α : Type} {p : α → Bool} {l rest : List α} {x : α}
    (h : l.dropWhile p = x :: rest) :
    x ∈ l ∧ p x = false ∧ (∀ y ∈ rest, y ∈ l) ∧ ∀ y ∈ l, y = x ∨ y ∈ rest ∨ p y = true := by
  induction l with
  | nil => simp at h
  | cons a l ih =>
    rw [List.dropWhile_cons] at h
    split at h
    · next ha =>
      obtain ⟨hx, hp, hrest, hall⟩ := ih h
      refine ⟨List.mem_cons_of_mem a hx, hp, fun y hy => List.mem_cons_of_mem a (hrest y hy), ?_⟩
      intro y hy
      rcases List.mem_cons.mp hy with rfl | hy
      · exact .inr (.inr ha)
      · exact hall y hy
    · next ha =>
      injection h with hax hrest
      subst hax hrest
      refine ⟨List.mem_cons_self, by simpa using ha, fun y hy => List.mem_cons_of_mem a hy, ?_⟩
      intro y hy
      rcases List.mem_cons.mp hy with rfl | hy
      · exact .inl rfl
      · exact .inr (.inl hy)

/-- A walk finds nothing but what it started with and what is reached from its stack. -/
theorem of_mem_visit {rounds : Nat} {stack : List EntityId} {seen : EntitySet} {x : EntityId}
    (hstack : ∀ s ∈ stack, s ∈ ds) (h : x ∈ ds.visit rounds stack seen) :
    x ∈ seen ∨ x ∈ ds ∧ ∃ s ∈ stack, ds.Reaches s x := by
  induction rounds generalizing stack seen with
  | zero => exact .inl h
  | succ rounds ih =>
    rw [visit] at h
    split at h
    · exact .inl h
    · next s rest hd =>
      obtain ⟨hs, _, hrest, _⟩ := mem_of_dropWhile_eq_cons hd
      have hstack' : ∀ y ∈ ds.next s ++ rest, y ∈ ds := by
        intro y hy
        rcases List.mem_append.mp hy with hy | hy
        · exact (mem_next_iff.mp hy).2
        · exact hstack y (hrest y hy)
      rcases ih hstack' h with hx | ⟨hx, y, hy, hr⟩
      · rcases mem_insert_iff.mp hx with rfl | hx
        · exact .inr ⟨hstack s hs, s, hs, .refl⟩
        · exact .inl hx
      · refine .inr ⟨hx, ?_⟩
        rcases List.mem_append.mp hy with hy | hy
        · exact ⟨s, hs, (mem_next_iff.mp hy).1.reaches.trans hr⟩
        · exact ⟨y, hrest y hy, hr⟩

/-- With a round for every entity, a walk finds its stack and ends closed under steps. The
invariant is that a step leads from what is seen to what is seen or still on the stack. -/
theorem visit_closed {rounds : Nat} {stack : List EntityId} {seen : EntitySet}
    (hstack : ∀ s ∈ stack, s ∈ ds) (hseen : ∀ s ∈ seen, s ∈ ds)
    (hrounds : ds.size < rounds + seen.size)
    (hinv : ∀ s ∈ seen, ∀ t ∈ ds.next s, t ∈ seen ∨ t ∈ stack) :
    (∀ s ∈ seen, s ∈ ds.visit rounds stack seen) ∧
      (∀ s ∈ stack, s ∈ ds.visit rounds stack seen) ∧
      ∀ s ∈ ds.visit rounds stack seen, ∀ t ∈ ds.next s, t ∈ ds.visit rounds stack seen := by
  induction rounds generalizing stack seen with
  | zero =>
    have : seen.size ≤ ds.size := by
      rw [← ExtTreeMap.length_keys]
      exact size_le_length fun s hs => ExtTreeMap.mem_keys.mpr (hseen s hs)
    omega
  | succ rounds ih =>
    rw [visit]
    split
    · next hd =>
      have hall : ∀ s ∈ stack, s ∈ seen := by
        intro s hs
        have : seen.contains s = true := by
          rw [List.dropWhile_eq_nil_iff] at hd
          exact hd s hs
        exact this
      refine ⟨fun _ hs => hs, hall, ?_⟩
      intro s hs t ht
      rcases hinv s hs t ht with h | h
      · exact h
      · exact hall t h
    · next x rest hd =>
      obtain ⟨hx, hxs, hrest, hall⟩ := mem_of_dropWhile_eq_cons hd
      have hxs : x ∉ seen := by
        rw [← ExtTreeSet.contains_iff_mem, hxs]
        exact Bool.false_ne_true
      have hsize : (seen.insert x).size = seen.size + 1 := by
        rw [ExtTreeSet.size_insert, if_neg (by simpa using hxs)]
      have hstack' : ∀ y ∈ ds.next x ++ rest, y ∈ ds := by
        intro y hy
        rcases List.mem_append.mp hy with hy | hy
        · exact (mem_next_iff.mp hy).2
        · exact hstack y (hrest y hy)
      have hseen' : ∀ y ∈ seen.insert x, y ∈ ds := by
        intro y hy
        rcases mem_insert_iff.mp hy with rfl | hy
        · exact hstack x hx
        · exact hseen y hy
      have hinv' : ∀ y ∈ seen.insert x, ∀ t ∈ ds.next y,
          t ∈ seen.insert x ∨ t ∈ ds.next x ++ rest := by
        intro y hy t ht
        rcases mem_insert_iff.mp hy with rfl | hy
        · exact .inr (List.mem_append_left _ ht)
        · rcases hinv y hy t ht with h | h
          · exact .inl (mem_insert_iff.mpr (.inr h))
          · rcases hall t h with rfl | h | h
            · exact .inl (mem_insert_iff.mpr (.inl rfl))
            · exact .inr (List.mem_append_right _ h)
            · exact .inl (mem_insert_iff.mpr (.inr h))
      obtain ⟨h₁, h₂, h₃⟩ := ih hstack' hseen' (by omega) hinv'
      refine ⟨fun s hs => h₁ s (mem_insert_iff.mpr (.inr hs)), ?_, h₃⟩
      intro s hs
      rcases hall s hs with rfl | h | h
      · exact h₁ s (mem_insert_iff.mpr (.inl rfl))
      · exact h₂ s (List.mem_append_right _ h)
      · exact h₁ s (mem_insert_iff.mpr (.inr h))

/-- The walk from an entity of the table finds exactly what the entity reaches in the table. -/
theorem mem_reach (h : id ∈ ds) :
    other ∈ ds.reach id ↔ ds.Reaches id other ∧ other ∈ ds := by
  have hstack : ∀ s ∈ [id], s ∈ ds := by
    intro s hs
    rw [List.mem_singleton.mp hs]
    exact h
  constructor
  · intro hr
    rcases of_mem_visit hstack hr with hr | ⟨hmem, s, hs, hr⟩
    · simp at hr
    · rw [List.mem_singleton.mp hs] at hr
      exact ⟨hr, hmem⟩
  · rintro ⟨hr, hmem⟩
    obtain ⟨_, hin, hclosed⟩ := @visit_closed ds (ds.size + 1) [id] ∅ hstack
      (by simp) (by simp) (by simp)
    induction hr with
    | refl => exact hin id (List.mem_singleton.mpr rfl)
    | @tail b c _ hbc ih =>
      exact hclosed b (ih hbc.mem) c (mem_next_iff.mpr ⟨hbc, hmem⟩)

end Derivations
end PermissionGraph
