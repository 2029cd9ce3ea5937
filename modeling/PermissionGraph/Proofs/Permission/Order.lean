import PermissionGraph.Permission.Set

/-!
# PermissionGraph.Proofs.Permission.Order

Permission sets ordered by inclusion, bit by bit. Of a set without bits that stand for no kind only
the kinds matter (`le_of_holds`). A set that consists of given bits and of kinds added to them lies
below another when that one has the bits and holds the kinds (`union_ofList_le_iff`), so between two
such sets over the same bits only the kinds matter (`union_ofList_congr`).
-/

namespace PermissionGraph
namespace PermissionSet

variable {a b c s : PermissionSet} {k : Permission} {ks ls : List Permission}

instance : LE PermissionSet := ⟨fun a b => b.contains a = true⟩

theorem le_iff_union_eq : a ≤ b ↔ b ∪ a = b := contains_iff

theorem le_iff : a ≤ b ↔ ∀ i < 8, a.bits.getLsbD i = true → b.bits.getLsbD i = true := by
  rw [le_iff_union_eq, PermissionSet.ext_bits_iff, bits_union]
  constructor
  · intro h i _ ha
    rw [← h, BitVec.getLsbD_or, ha, Bool.or_true]
  · intro h
    apply BitVec.eq_of_getLsbD_eq
    intro i hi
    rw [BitVec.getLsbD_or]
    cases ha : a.bits.getLsbD i with
    | false => rw [Bool.or_false]
    | true => rw [h i hi ha, Bool.or_true]

theorem le_refl (s : PermissionSet) : s ≤ s := le_iff.mpr fun _ _ h => h

theorem le_trans (h : a ≤ b) (h' : b ≤ c) : a ≤ c :=
  le_iff.mpr fun i hi ha => le_iff.mp h' i hi (le_iff.mp h i hi ha)

theorem le_antisymm (h : a ≤ b) (h' : b ≤ a) : a = b := by
  apply ext_bits
  apply BitVec.eq_of_getLsbD_eq
  intro i hi
  exact Bool.eq_iff_iff.mpr ⟨le_iff.mp h i hi, le_iff.mp h' i hi⟩

theorem holds_of_le (h : a ≤ b) (ha : a.holds k = true) : b.holds k = true :=
  le_iff.mp h k.index (Nat.lt_trans k.index_lt (by decide)) ha

theorem le_union_left (a b : PermissionSet) : a ≤ a ∪ b := by
  rw [le_iff]
  intro i _ h
  rw [bits_union, BitVec.getLsbD_or, h, Bool.true_or]

theorem le_union_right (a b : PermissionSet) : b ≤ a ∪ b := by
  rw [le_iff]
  intro i _ h
  rw [bits_union, BitVec.getLsbD_or, h, Bool.or_true]

theorem union_le_iff : a ∪ b ≤ c ↔ a ≤ c ∧ b ≤ c := by
  simp only [le_iff, bits_union, BitVec.getLsbD_or, Bool.or_eq_true]
  constructor
  · intro h
    exact ⟨fun i hi ha => h i hi (.inl ha), fun i hi hb => h i hi (.inr hb)⟩
  · rintro ⟨ha, hb⟩ i hi (h | h)
    · exact ha i hi h
    · exact hb i hi h

theorem empty_le (s : PermissionSet) : ∅ ≤ s := le_iff.mpr (by simp)

theorem union_ne_empty (a : PermissionSet) (h : b ≠ ∅) : a ∪ b ≠ ∅ := by
  intro hempty
  have hb := le_union_right a b
  rw [hempty] at hb
  exact h (le_antisymm hb (empty_le b))

theorem inter_le_left (a b : PermissionSet) : a ∩ b ≤ a := by
  rw [le_iff]
  intro i _ h
  rw [bits_inter, BitVec.getLsbD_and, Bool.and_eq_true] at h
  exact h.1

theorem inter_le_right (a b : PermissionSet) : a ∩ b ≤ b := by
  rw [le_iff]
  intro i _ h
  rw [bits_inter, BitVec.getLsbD_and, Bool.and_eq_true] at h
  exact h.2

theorem sdiff_le (a b : PermissionSet) : a \ b ≤ a := by
  rw [le_iff]
  intro i _ h
  rw [bits_sdiff, BitVec.getLsbD_and, Bool.and_eq_true] at h
  exact h.1

theorem sdiff_empty (s : PermissionSet) : s \ ∅ = s := by
  apply ext_bits
  apply BitVec.eq_of_getLsbD_eq
  intro i hi
  rw [bits_sdiff, bits_empty, BitVec.getLsbD_and, BitVec.getLsbD_not]
  simp [hi]

theorem sum_le_iff {l : List PermissionSet} : sum l ≤ b ↔ ∀ a ∈ l, a ≤ b := by
  have hfold : ∀ a, l.foldl (· ∪ ·) a ≤ b ↔ a ≤ b ∧ ∀ c ∈ l, c ≤ b := by
    induction l with
    | nil => simp
    | cons c l ih =>
      intro a
      rw [List.foldl_cons, ih, union_le_iff, List.forall_mem_cons, and_assoc]
  rw [sum, hfold ∅]
  exact and_iff_right (empty_le b)

theorem sum_eq_empty {l : List PermissionSet} (h : ∀ a ∈ l, a = ∅) : sum l = ∅ := by
  refine le_antisymm (sum_le_iff.mpr fun a ha => ?_) (empty_le _)
  rw [h a ha]
  exact le_refl ∅

/-- Of a set that lies below another but for its kinds, only the kinds matter. -/
theorem le_of_le_union_full (h : s ≤ a ∪ full) (ha : a ≤ b)
    (hk : ∀ k, s.holds k = true → b.holds k = true) : s ≤ b := by
  have hkind : ∀ i < 8, full.bits.getLsbD i = true → ∃ k ∈ Permission.all, k.index = i := by decide
  rw [le_iff]
  intro i hi hbit
  have hor := le_iff.mp h i hi hbit
  rw [bits_union, BitVec.getLsbD_or, Bool.or_eq_true] at hor
  rcases hor with hbit' | hfull
  · exact le_iff.mp ha i hi hbit'
  · obtain ⟨k, _, rfl⟩ := hkind i hi hfull
    exact hk k hbit

theorem le_of_holds (hs : s ≤ full) (h : ∀ k, s.holds k = true → b.holds k = true) : s ≤ b :=
  le_of_le_union_full (le_trans hs (le_union_right ∅ full)) (empty_le b) h

theorem single_le_iff : single k ≤ s ↔ s.holds k = true := by
  constructor
  · intro h
    exact holds_of_le h (by simp)
  · intro h
    rw [le_iff]
    intro i _ hi
    rw [single, BitVec.getLsbD_twoPow] at hi
    obtain ⟨_, rfl⟩ : k.index < 8 ∧ k.index = i := by simpa using hi
    exact h

theorem union_ofList_le_iff : s ∪ ofList ks ≤ b ↔ s ≤ b ∧ ∀ k ∈ ks, b.holds k = true := by
  rw [union_le_iff, ofList]
  have hfold : ∀ (a : PermissionSet),
      ks.foldl (fun s k => s ∪ single k) a ≤ b ↔ a ≤ b ∧ ∀ k ∈ ks, b.holds k = true := by
    induction ks with
    | nil => simp
    | cons k ks ih =>
      intro a
      rw [List.foldl_cons, ih, union_le_iff, single_le_iff, List.forall_mem_cons, and_assoc]
  rw [hfold ∅]
  exact and_congr_right' (and_iff_right (empty_le b))

theorem ofList_le_full (ks : List Permission) : ofList ks ≤ full := by
  have h : (∅ : PermissionSet) ∪ ofList ks ≤ full :=
    union_ofList_le_iff.mpr ⟨empty_le full, fun k _ => holds_full k⟩
  exact (union_le_iff.mp h).2

theorem union_ofList_congr (h : ∀ k, (s ∪ ofList ks).holds k = (s ∪ ofList ls).holds k) :
    s ∪ ofList ks = s ∪ ofList ls := by
  apply le_antisymm
  · refine union_ofList_le_iff.mpr ⟨le_union_left s _, fun k hk => ?_⟩
    rw [← h k]
    simp [hk]
  · refine union_ofList_le_iff.mpr ⟨le_union_left s _, fun k hk => ?_⟩
    rw [h k]
    simp [hk]

end PermissionSet
end PermissionGraph
