import Mathlib.Data.Finset.Card
import Mathlib.Data.List.ProdSigma
import PermissionGraph.Proofs.Access.Rounds
import PermissionGraph.Proofs.Permission.Order

/-!
# PermissionGraph.Proofs.Access.Additive

Components in which nothing is taken away. There a round only ever adds (`below_round`), each round
that changes something adds a kind to a member, and there are only so many kinds to add: the
iteration meets an assignment that a round does not change and never needs its fallback
(`stabilises_of_adds`). What it meets lies below every assignment that a round only lowers
(`held_after_le`).
-/

namespace PermissionGraph

open Std

/-! ## Gains -/

theorem Rule.removed_of_adds {rule : Rule} (h : ∀ k, rule.effect k ≠ .remove)
    (held : PermissionSet) : rule.removed held = ∅ := by
  have hkinds : rule.kindsWith .remove ≤ ∅ := by
    refine PermissionSet.le_of_holds (PermissionSet.ofList_le_full _) fun k hk => ?_
    rw [Rule.holds_kindsWith, beq_iff_eq] at hk
    exact absurd hk (h k)
  exact PermissionSet.le_antisymm
    (PermissionSet.le_trans (PermissionSet.inter_le_right _ _) hkinds) (PermissionSet.empty_le _)

theorem Rule.added_le_full (rule : Rule) (held : PermissionSet) : rule.added held ≤ .full :=
  PermissionSet.le_trans (PermissionSet.inter_le_right _ _) (PermissionSet.ofList_le_full _)

namespace Input

variable {i : Input} {held f g : EntityId → PermissionSet} {k : Permission}

/-- Whether an input gives a kind, unless another takes it away. -/
def gives (held : EntityId → PermissionSet) (k : Permission) : Input → Bool
  | propagated other rule => rule.effect k == .add && (held other).holds k
  | endpoints source target =>
    k == .read && ((held source).holds .read && (held target).holds .read)

/-- An input that takes no kind away, whatever is held elsewhere. -/
def Adds : Input → Prop
  | propagated _ rule => ∀ k, rule.effect k ≠ .remove
  | endpoints .. => True

theorem holds_added (i : Input) (held : EntityId → PermissionSet) (k : Permission) :
    (i.added held).holds k = i.gives held k := by
  cases i with
  | propagated other rule => rw [added, gives, Rule.holds_added, Bool.and_comm]
  | endpoints source target =>
    rw [added, gives]
    cases h : (held source).holds .read && (held target).holds .read with
    | true =>
      rw [if_pos rfl, PermissionSet.holds_single, Bool.and_true]
      cases k <;> rfl
    | false => rw [if_neg Bool.false_ne_true, PermissionSet.holds_empty, Bool.and_false]

theorem added_le_full (i : Input) (held : EntityId → PermissionSet) : i.added held ≤ .full := by
  cases i with
  | propagated other rule => exact rule.added_le_full (held other)
  | endpoints source target =>
    rw [added]
    split
    · exact PermissionSet.single_le_iff.mpr (PermissionSet.holds_full _)
    · exact PermissionSet.empty_le _

theorem removed_of_adds (h : i.Adds) (held : EntityId → PermissionSet) : i.removed held = ∅ := by
  cases i with
  | propagated other rule => exact rule.removed_of_adds h (held other)
  | endpoints source target => rfl

theorem holds_of_gives (hk : i.gives held k = true) : ∀ o ∈ i.origins, (held o).holds k = true := by
  intro o ho
  cases i with
  | propagated other rule =>
    rw [origins, List.mem_singleton] at ho
    rw [gives, Bool.and_eq_true] at hk
    rw [ho]
    exact hk.2
  | endpoints source target =>
    rw [origins, List.mem_pair] at ho
    rw [gives, Bool.and_eq_true, Bool.and_eq_true, beq_iff_eq] at hk
    obtain ⟨rfl, hsource, htarget⟩ := hk
    rcases ho with rfl | rfl
    · exact hsource
    · exact htarget

theorem gives_of_imp (h : ∀ o ∈ i.origins, (f o).holds k = true → (g o).holds k = true)
    (hk : i.gives f k = true) : i.gives g k = true := by
  have hg := fun o ho => h o ho (holds_of_gives hk o ho)
  cases i with
  | propagated other rule =>
    rw [gives, Bool.and_eq_true] at hk ⊢
    exact ⟨hk.1, hg other (by simp [origins])⟩
  | endpoints source target =>
    rw [gives, Bool.and_eq_true, Bool.and_eq_true, beq_iff_eq] at hk ⊢
    obtain ⟨rfl, _⟩ := hk
    exact ⟨rfl, hg source (by simp [origins]), hg target (by simp [origins])⟩

theorem gives_mono (h : ∀ o ∈ i.origins, f o ≤ g o) (hk : i.gives f k = true) :
    i.gives g k = true :=
  gives_of_imp (fun o ho => PermissionSet.holds_of_le (h o ho)) hk

end Input

namespace Derivation

variable {d : Derivation} {held f g : EntityId → PermissionSet} {k : Permission}

/-- The base, and all that some input gives. -/
def gain (d : Derivation) (held : EntityId → PermissionSet) : PermissionSet :=
  d.base ∪ .ofList (Permission.all.filter fun k => d.inputs.any (·.gives held k))

/-- No input takes a kind away. -/
def Adds (d : Derivation) : Prop := ∀ i ∈ d.inputs, i.Adds

theorem holds_gain :
    (d.gain held).holds k = (d.base.holds k || d.inputs.any (·.gives held k)) := by
  rw [gain, PermissionSet.holds_union, PermissionSet.holds_ofList, Bool.eq_iff_iff]
  simp [Permission.mem_all]

theorem base_le_gain : d.base ≤ d.gain held := PermissionSet.le_union_left _ _

theorem gain_le_iff {s : PermissionSet} :
    d.gain held ≤ s ↔
      d.base ≤ s ∧ ∀ k, (∃ i ∈ d.inputs, i.gives held k = true) → s.holds k = true := by
  rw [gain, PermissionSet.union_ofList_le_iff]
  simp [Permission.mem_all]

theorem gain_mono (h : ∀ o ∈ d.origins, f o ≤ g o) : d.gain f ≤ d.gain g := by
  refine gain_le_iff.mpr ⟨base_le_gain, ?_⟩
  rintro k ⟨i, hi, hk⟩
  have hg := Input.gives_mono (fun o ho => h o (mem_origins.mpr ⟨i, hi, ho⟩)) hk
  rw [holds_gain, Bool.or_eq_true, List.any_eq_true]
  exact .inr ⟨i, hi, hg⟩

/-- Where nothing is taken away, the permissions are the base with what is gained. -/
theorem combine_of_adds (h : d.Adds) (held : EntityId → PermissionSet) :
    d.combine held = d.gain held := by
  have hremoved : PermissionSet.sum (d.inputs.map (·.removed held)) = ∅ := by
    refine PermissionSet.sum_eq_empty fun s hs => ?_
    obtain ⟨i, hi, rfl⟩ := List.mem_map.mp hs
    exact Input.removed_of_adds (h i hi) held
  rw [combine, hremoved, PermissionSet.sdiff_empty]
  apply PermissionSet.le_antisymm
  · refine PermissionSet.union_le_iff.mpr ⟨base_le_gain, PermissionSet.sum_le_iff.mpr ?_⟩
    intro s hs
    obtain ⟨i, hi, rfl⟩ := List.mem_map.mp hs
    refine PermissionSet.le_of_holds (i.added_le_full held) fun k hk => ?_
    rw [holds_gain, Bool.or_eq_true, List.any_eq_true]
    exact .inr ⟨i, hi, i.holds_added held k ▸ hk⟩
  · refine gain_le_iff.mpr ⟨PermissionSet.le_union_left _ _, ?_⟩
    rintro k ⟨i, hi, hk⟩
    rw [PermissionSet.holds_union, PermissionSet.holds_sum, List.any_map, Bool.or_eq_true,
      List.any_eq_true]
    exact .inr ⟨i, hi, (i.holds_added held k).trans hk⟩

end Derivation

/-- A table in which nothing is taken away. -/
def Derivations.Adds (ds : Derivations) : Prop :=
  ∀ (id : EntityId) (d : Derivation), ds[id]? = some d → d.Adds

/-! ## Rounds -/

namespace Settling

variable {members : Derivations} {outside : EntityId → PermissionSet} {x y : Holdings}
  {id : EntityId} {n : Nat}

/-- One assignment says no more than another of any entity. -/
def Below (outside : EntityId → PermissionSet) (x y : Holdings) : Prop :=
  ∀ id, held outside x id ≤ held outside y id

/-- What a member holds is its base with kinds added. -/
def Grown (members : Derivations) (outside : EntityId → PermissionSet) (x : Holdings) : Prop :=
  ∀ (id : EntityId) (d : Derivation), members[id]? = some d →
    ∃ ks, held outside x id = d.base ∪ .ofList ks

/-- Assignments to the same members compare as what the members hold. -/
theorem below_of_members (hx : Over members x) (hy : Over members y)
    (h : ∀ (id : EntityId) (d : Derivation), members[id]? = some d →
      held outside x id ≤ held outside y id) :
    Below outside x y := by
  intro id
  cases hd : members[id]? with
  | some d => exact h id d hd
  | none =>
    have hnot : id ∉ members := by simpa using hd
    rw [held_of_notMem hx hnot, held_of_notMem hy hnot]
    exact PermissionSet.le_refl _

/-! ## Where nothing is taken away -/

theorem below_bases (h : members.Adds) :
    Below outside (bases members) (round members outside (bases members)) := by
  refine below_of_members over_bases over_round fun id d hd => ?_
  rw [held_bases hd, held_round hd, Derivation.combine_of_adds (h id d hd)]
  exact Derivation.base_le_gain

theorem below_round (h : members.Adds) (hxy : Below outside x y) :
    Below outside (round members outside x) (round members outside y) := by
  refine below_of_members over_round over_round fun id d hd => ?_
  rw [held_round hd, held_round hd, Derivation.combine_of_adds (h id d hd),
    Derivation.combine_of_adds (h id d hd)]
  exact Derivation.gain_mono fun o _ => hxy o

theorem below_after (h : members.Adds) :
    Below outside (after members outside n) (after members outside (n + 1)) := by
  induction n with
  | zero => exact below_bases h
  | succ n ih =>
    have hstep := below_round h ih
    rwa [← after_succ, ← after_succ] at hstep

theorem grown_after (h : members.Adds) : Grown members outside (after members outside n) := by
  intro id d hd
  cases n with
  | zero => exact ⟨[], (held_bases hd).trans (PermissionSet.union_empty d.base).symm⟩
  | succ n =>
    rw [after_succ, held_round hd, Derivation.combine_of_adds (h id d hd)]
    exact ⟨_, rfl⟩

/-! ## Counting -/

/-- Every kind on every member. -/
def cells (members : Derivations) : Finset (EntityId × Permission) :=
  (members.keys.product Permission.all).toFinset

/-- The kinds held on members. -/
def heldCells (members : Derivations) (outside : EntityId → PermissionSet) (x : Holdings) :
    Finset (EntityId × Permission) :=
  (cells members).filter fun c => (held outside x c.1).holds c.2 = true

theorem mem_heldCells {k : Permission} :
    (id, k) ∈ heldCells members outside x ↔ id ∈ members ∧ (held outside x id).holds k = true := by
  simp [heldCells, cells, Permission.mem_all]

theorem card_heldCells_lt : (heldCells members outside x).card < bound members := by
  have hcells : (cells members).card ≤ members.size * Permission.all.length := by
    rw [← ExtTreeMap.length_keys, ← List.length_product]
    exact List.toFinset_card_le _
  exact Nat.lt_succ_of_le ((Finset.card_filter_le _ _).trans hcells)

/-- A round that changes something adds a kind to a member. -/
theorem heldCells_ssubset (hx : Over members x) (hy : Over members y)
    (hgx : Grown members outside x) (hgy : Grown members outside y) (hxy : Below outside x y)
    (hne : y ≠ x) : heldCells members outside x ⊂ heldCells members outside y := by
  refine Finset.ssubset_iff_subset_ne.mpr ⟨?_, fun heq => hne ?_⟩
  · rintro ⟨id, k⟩ hk
    rw [mem_heldCells] at hk ⊢
    exact ⟨hk.1, PermissionSet.holds_of_le (hxy id) hk.2⟩
  · apply ExtTreeMap.ext_getElem?
    intro id
    by_cases hid : id ∈ members
    · obtain ⟨d, hd⟩ := Derivations.mem_iff_getElem?.mp hid
      obtain ⟨ks, hks⟩ := hgx id d hd
      obtain ⟨ls, hls⟩ := hgy id d hd
      rw [getElem?_of_mem hx hid, getElem?_of_mem hy hid, hks, hls]
      refine congrArg some (PermissionSet.union_ofList_congr fun k => ?_)
      have hk := Finset.ext_iff.mp heq (id, k)
      rw [mem_heldCells, mem_heldCells, and_iff_right hid, and_iff_right hid, hks, hls] at hk
      exact (Bool.eq_iff_iff.mpr hk).symm
    · have hnx := (hx id).not.mpr hid
      have hny := (hy id).not.mpr hid
      rw [ExtTreeMap.getElem?_eq_none hnx, ExtTreeMap.getElem?_eq_none hny]

/-- As long as every round changes something, there is a kind held for every round. -/
theorem le_card_heldCells (h : members.Adds)
    (hn : ∀ m < n, round members outside (after members outside m) ≠ after members outside m) :
    n ≤ (heldCells members outside (after members outside n)).card := by
  induction n with
  | zero => exact Nat.zero_le _
  | succ n ih =>
    have hlast := hn n (by omega)
    rw [← after_succ] at hlast
    have hlt := Finset.card_lt_card (heldCells_ssubset over_after over_after (grown_after h)
      (grown_after h) (below_after h) hlast)
    have hle := ih fun m hm => hn m (by omega)
    omega

/-- Where nothing is taken away the iteration becomes stable within its bound, and never needs the
fallback. -/
theorem stabilises_of_adds (h : members.Adds) : Stabilises members outside := by
  rcases iterate_spec members outside (bound members) (bases members) with hstable | ⟨hall, _⟩
  · exact hstable
  · have hle := le_card_heldCells h hall
    have hlt := @card_heldCells_lt members outside (after members outside (bound members))
    omega

/-- What the iteration reaches lies below every assignment that a round only lowers. -/
theorem held_after_le {Y : EntityId → PermissionSet} (h : members.Adds)
    (hout : ∀ (id : EntityId) (d : Derivation), members[id]? = some d → ∀ o ∈ d.origins,
      o ∉ members → outside o ≤ Y o)
    (hY : ∀ (id : EntityId) (d : Derivation), members[id]? = some d → d.gain Y ≤ Y id) :
    ∀ (id : EntityId) (d : Derivation), members[id]? = some d →
      held outside (after members outside n) id ≤ Y id := by
  induction n with
  | zero =>
    intro id d hd
    rw [after, Function.iterate_zero, id_eq, held_bases hd]
    exact PermissionSet.le_trans Derivation.base_le_gain (hY id d hd)
  | succ n ih =>
    intro id d hd
    rw [after_succ, held_round hd, Derivation.combine_of_adds (h id d hd)]
    refine PermissionSet.le_trans (Derivation.gain_mono fun o ho => ?_) (hY id d hd)
    cases hod : members[o]? with
    | some d' => exact ih o d' hod
    | none =>
      have hnot : o ∉ members := by simpa using hod
      rw [held_of_notMem over_after hnot]
      exact hout id d hd o ho hnot

end Settling
end PermissionGraph
