import Mathlib.Logic.Function.Iterate
import PermissionGraph.Access.Settling
import PermissionGraph.Proofs.Access.Reach
import PermissionGraph.Proofs.Permission.Order

/-!
# PermissionGraph.Proofs.Access.Rounds

The iteration that resolves a component, seen from outside. It depends on what is held outside the
component only where a member draws on it (`settle_congr`), it says what each member holds and
nothing else (`over_settle`), and it ends in one of two ways (`iterate_spec`): with an assignment
that a round does not change (`Stabilises`), or with the fallback after all of its rounds.
`exists_holds_settle` describes both ends at once.
-/

namespace PermissionGraph

open Std

/-! ## What a derivation reads -/

theorem Input.added_congr {f g : EntityId → PermissionSet} {i : Input}
    (h : ∀ o ∈ i.origins, f o = g o) : i.added f = i.added g := by
  cases i with
  | propagated other rule => rw [added, added, h other (by simp [origins])]
  | endpoints source target =>
    rw [added, added, h source (by simp [origins]), h target (by simp [origins])]

theorem Input.removed_congr {f g : EntityId → PermissionSet} {i : Input}
    (h : ∀ o ∈ i.origins, f o = g o) : i.removed f = i.removed g := by
  cases i with
  | propagated other rule => rw [removed, removed, h other (by simp [origins])]
  | endpoints source target => rfl

theorem Derivation.combine_congr {f g : EntityId → PermissionSet} {d : Derivation}
    (h : ∀ o ∈ d.origins, f o = g o) : d.combine f = d.combine g := by
  have hi : ∀ i ∈ d.inputs, ∀ o ∈ i.origins, f o = g o := by
    intro i hi o ho
    exact h o (mem_origins.mpr ⟨i, hi, ho⟩)
  have hadd : d.inputs.map (·.added f) = d.inputs.map (·.added g) :=
    List.map_congr_left fun i hmem => Input.added_congr (hi i hmem)
  have hrem : d.inputs.map (·.removed f) = d.inputs.map (·.removed g) :=
    List.map_congr_left fun i hmem => Input.removed_congr (hi i hmem)
  rw [combine, combine, hadd, hrem]

namespace Settling

variable {members : Derivations} {outside f g : EntityId → PermissionSet} {x : Holdings}
  {id : EntityId} {n : Nat}

/-- Two functions agree on everything outside a table that its entities draw on. -/
def AgreeOutside {α : Type} (members : Derivations) (f g : EntityId → α) : Prop :=
  ∀ (id : EntityId) (d : Derivation), members[id]? = some d → ∀ o ∈ d.origins, o ∉ members →
    f o = g o

/-- It is said for each member what it holds, and for nothing else. -/
def Over (members : Derivations) (x : Holdings) : Prop := ∀ id, id ∈ x ↔ id ∈ members

theorem over_bases : Over members (bases members) := by
  intro id
  exact ExtTreeMap.mem_map

theorem over_round : Over members (round members outside x) := by
  intro id
  exact ExtTreeMap.mem_map

theorem over_fallback : Over members (fallback members outside x) := by
  intro id
  exact ExtTreeMap.mem_map

theorem over_iterate (h : Over members x) :
    Over members (iterate members outside n x) := by
  induction n generalizing x with
  | zero => exact over_fallback
  | succ n ih =>
    by_cases hs : round members outside x = x
    · rw [iterate_of_round_eq hs]
      exact h
    · rw [iterate_succ n hs]
      exact ih over_round

theorem over_settle : Over members (settle members outside) := over_iterate over_bases

theorem held_congr (hx : Over members x) (h : AgreeOutside members f g) {d : Derivation}
    (hd : members[id]? = some d) : ∀ o ∈ d.origins, held f x o = held g x o := by
  intro o ho
  cases hxo : x[o]? with
  | some s => simp [held, hxo]
  | none =>
    have hnot : o ∉ members := by
      rw [← hx o]
      simpa using hxo
    simp [held, hxo, h id d hd o ho hnot]

theorem round_congr (hx : Over members x) (h : AgreeOutside members f g) :
    round members f x = round members g x := by
  apply ExtTreeMap.ext_getElem?
  intro id
  rw [getElem?_round, getElem?_round]
  cases hd : members[id]? with
  | none => rw [Option.map_none, Option.map_none]
  | some d => rw [Option.map_some, Option.map_some, Derivation.combine_congr (held_congr hx h hd)]

theorem iterate_congr (hx : Over members x) (h : AgreeOutside members f g) :
    iterate members f n x = iterate members g n x := by
  induction n generalizing x with
  | zero => rw [iterate, iterate, fallback, fallback, round_congr hx h]
  | succ n ih =>
    rw [iterate, iterate, round_congr hx h, ih over_round]

/-- What a component settles on depends on what is held outside where a member draws on it. -/
theorem settle_congr (h : AgreeOutside members f g) : settle members f = settle members g :=
  iterate_congr over_bases h

/-! ## The end of the iteration -/

/-- The assignment after some rounds. -/
def after (members : Derivations) (outside : EntityId → PermissionSet) (n : Nat) : Holdings :=
  (round members outside)^[n] (bases members)

/-- Within its bound the iteration meets an assignment that a round does not change, and ends with
it. -/
def Stabilises (members : Derivations) (outside : EntityId → PermissionSet) : Prop :=
  ∃ n < bound members, round members outside (after members outside n) = after members outside n ∧
    settle members outside = after members outside n

theorem after_succ :
    after members outside (n + 1) = round members outside (after members outside n) :=
  Function.iterate_succ_apply' _ n _

theorem over_after : Over members (after members outside n) := by
  cases n with
  | zero => exact over_bases
  | succ n =>
    rw [after_succ]
    exact over_round

theorem held_of_notMem (hx : Over members x) (h : id ∉ members) :
    held outside x id = outside id := by
  have hnone : x[id]? = none := by
    apply ExtTreeMap.getElem?_eq_none
    rwa [hx id]
  rw [held, hnone]

theorem getElem?_of_mem (hx : Over members x) (h : id ∈ members) :
    x[id]? = some (held outside x id) := by
  rw [← hx id, ExtTreeMap.mem_iff_isSome_getElem?, Option.isSome_iff_exists] at h
  obtain ⟨s, hs⟩ := h
  rw [held, hs]

theorem held_bases {d : Derivation} (h : members[id]? = some d) :
    held outside (bases members) id = d.base := by
  rw [held, getElem?_bases, h]
  rfl

theorem held_round {d : Derivation} (h : members[id]? = some d) :
    held outside (round members outside x) id = d.combine (held outside x) := by
  rw [held, getElem?_round, h]
  rfl

/-- The iteration ends with the first assignment that a round does not change or, if it meets none
in all of its rounds, with the fallback. -/
theorem iterate_spec (members : Derivations) (outside : EntityId → PermissionSet) (n : Nat)
    (x : Holdings) :
    (∃ k < n, round members outside ((round members outside)^[k] x) = (round members outside)^[k] x
        ∧ iterate members outside n x = (round members outside)^[k] x) ∨
      (∀ k < n, round members outside ((round members outside)^[k] x)
          ≠ (round members outside)^[k] x) ∧
        iterate members outside n x = fallback members outside ((round members outside)^[n] x) := by
  induction n generalizing x with
  | zero => exact .inr ⟨fun k hk => absurd hk k.not_lt_zero, rfl⟩
  | succ n ih =>
    by_cases hs : round members outside x = x
    · exact .inl ⟨0, n.succ_pos, hs, iterate_of_round_eq hs n⟩
    · rw [iterate_succ n hs]
      rcases ih (round members outside x) with ⟨k, hk, hfix, heq⟩ | ⟨hall, heq⟩
      · exact .inl ⟨k + 1, by omega, hfix, heq⟩
      · refine .inr ⟨?_, heq⟩
        intro k hk
        cases k with
        | zero => exact hs
        | succ k => exact hall k (by omega)

theorem withoutChanging_self (base s : PermissionSet) : withoutChanging base s s = s := by
  have hnone : s.symmDiff s = ∅ := PermissionSet.ext_bits BitVec.xor_self
  have hinter : base ∩ ∅ = ∅ :=
    PermissionSet.le_antisymm (PermissionSet.inter_le_right base ∅) (PermissionSet.empty_le _)
  rw [withoutChanging, hnone, hinter, PermissionSet.sdiff_empty, PermissionSet.union_empty]

/-- What a member is left with after some rounds depends on what the next one changes. -/
theorem held_fallback {d : Derivation} (h : members[id]? = some d) :
    held outside (fallback members outside (after members outside n)) id =
      withoutChanging d.base (held outside (after members outside n) id)
        (held outside (after members outside (n + 1)) id) := by
  have hget : ∀ n,
      (after members outside n).getD id ∅ = held outside (after members outside n) id := by
    intro n
    rw [ExtTreeMap.getD_eq_getD_getElem?,
      getElem?_of_mem over_after (Derivations.mem_of_getElem? h), Option.getD_some]
  rw [← hget, ← hget, after_succ, held, fallback]
  simp only [ExtTreeMap.getElem?_map, h]
  rfl

/-- A component ends with what some round gives, apart from what the next round changes. -/
theorem exists_held_settle (members : Derivations) (outside : EntityId → PermissionSet) :
    ∃ N, ∀ (id : EntityId) (d : Derivation), members[id]? = some d →
      held outside (settle members outside) id =
        withoutChanging d.base (held outside (after members outside N) id)
          (held outside (after members outside (N + 1)) id) := by
  rcases iterate_spec members outside (bound members) (bases members) with
    ⟨N, _, hstable, hsettle⟩ | ⟨_, hsettle⟩
  · refine ⟨N, fun id d _ => ?_⟩
    have hnext : after members outside (N + 1) = after members outside N :=
      after_succ.trans hstable
    rw [hnext, withoutChanging_self, settle, hsettle]
    rfl
  · refine ⟨bound members, fun id d hd => ?_⟩
    rw [settle, hsettle]
    exact held_fallback hd

/-- Of kinds that the next round changes, a component ends with the bases. -/
theorem exists_holds_settle (members : Derivations) (outside : EntityId → PermissionSet) :
    ∃ N, ∀ (id : EntityId) (d : Derivation) (k : Permission), members[id]? = some d →
      (held outside (settle members outside) id).holds k =
        if (held outside (after members outside N) id).holds k =
            (held outside (after members outside (N + 1)) id).holds k
        then (held outside (after members outside N) id).holds k
        else d.base.holds k := by
  obtain ⟨N, hN⟩ := exists_held_settle members outside
  refine ⟨N, fun id d k hd => ?_⟩
  rw [hN id d hd, holds_withoutChanging]

end Settling
end PermissionGraph
