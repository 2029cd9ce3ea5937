import Mathlib.Data.List.Forall2
import PermissionGraph.Proofs.Access.Settled

/-!
# PermissionGraph.Proofs.Access.Rearranged

Derivations whose inputs stand in another order. As long as they draw on the same entities in the
same order (`Derivation.Rearranges`), they give the same permissions, and a table of them falls into
components, settles and is resolved as the other does (`Resolved.of_eq`).
-/

namespace PermissionGraph

open Std Derivations

/-- A union hangs on what it is the union of, not on how often or in which order. -/
theorem PermissionSet.sum_congr {l l' : List PermissionSet} (h : ∀ s, s ∈ l ↔ s ∈ l') :
    sum l = sum l' := by
  have hle : ∀ {l l' : List PermissionSet}, (∀ s, s ∈ l → s ∈ l') → sum l ≤ sum l' := by
    intro l l' h
    exact sum_le_iff.mpr fun s hs => sum_le_iff.mp (le_refl _) s (h s hs)
  exact le_antisymm (hle fun s => (h s).mp) (hle fun s => (h s).mpr)

/-- The same over values of one function. -/
theorem PermissionSet.sum_map_congr {α : Type} {l l' : List α} {f : α → PermissionSet}
    (h : ∀ a, a ∈ l ↔ a ∈ l') : sum (l.map f) = sum (l'.map f) := by
  refine sum_congr fun s => ?_
  rw [List.mem_map, List.mem_map]
  exact exists_congr fun a => and_congr_left' (h a)

/-- A derivation with the same base and the same inputs, in an order in which the same entities are
drawn on one after another. -/
structure Derivation.Rearranges (d' d : Derivation) : Prop where
  base : d'.base = d.base
  consulted : d'.consulted = d.consulted
  origins : d'.origins = d.origins
  mem_inputs : ∀ i, i ∈ d'.inputs ↔ i ∈ d.inputs

theorem Derivation.Rearranges.symm {d d' : Derivation} (h : d'.Rearranges d) : d.Rearranges d' :=
  ⟨h.base.symm, h.consulted.symm, h.origins.symm, fun i => (h.mem_inputs i).symm⟩

theorem Derivation.Rearranges.combine_eq {d d' : Derivation} (h : d'.Rearranges d)
    (held : EntityId → PermissionSet) : d'.combine held = d.combine held := by
  rw [combine, combine, h.base, PermissionSet.sum_map_congr h.mem_inputs,
    PermissionSet.sum_map_congr h.mem_inputs]

namespace Derivations

variable {D D' : Derivations} {id : EntityId}

/-- A table of the same entities with rearranged derivations. -/
def Rearranges (D' D : Derivations) : Prop :=
  ∀ id : EntityId, (D'[id]? = none ∧ D[id]? = none) ∨
    ∃ d' d, D'[id]? = some d' ∧ D[id]? = some d ∧ d'.Rearranges d

theorem Rearranges.mem_iff (h : D'.Rearranges D) : id ∈ D' ↔ id ∈ D := by
  rw [ExtTreeMap.mem_iff_isSome_getElem?, ExtTreeMap.mem_iff_isSome_getElem?]
  rcases h id with ⟨hd', hd⟩ | ⟨d', d, hd', hd, _⟩
  · rw [hd', hd]
  · rw [hd', hd]
    exact Iff.rfl

theorem Rearranges.symm (h : D'.Rearranges D) : D.Rearranges D' := by
  intro id
  rcases h id with ⟨hd', hd⟩ | ⟨d', d, hd', hd, hrel⟩
  · exact .inl ⟨hd, hd'⟩
  · exact .inr ⟨d, d', hd, hd', hrel.symm⟩

theorem Rearranges.exists_of_getElem? {d' : Derivation} (h : D'.Rearranges D)
    (hd' : D'[id]? = some d') : ∃ d, D[id]? = some d ∧ d'.Rearranges d := by
  rcases h id with ⟨hnone, _⟩ | ⟨_, d, hsome, hd, hrel⟩
  · rw [hd'] at hnone
    cases hnone
  · obtain rfl := Option.some_inj.mp (hd'.symm.trans hsome)
    exact ⟨d, hd, hrel⟩

/-- What is read off each derivation without looking at the order of its inputs. -/
theorem Rearranges.map_eq {β : Type} (h : D'.Rearranges D) {f g : EntityId → Derivation → β}
    (hfg : ∀ id d d', d'.Rearranges d → f id d' = g id d) : D'.map f = D.map g := by
  apply ExtTreeMap.ext_getElem?
  intro id
  rw [ExtTreeMap.getElem?_map, ExtTreeMap.getElem?_map]
  rcases h id with ⟨hd', hd⟩ | ⟨d', d, hd', hd, hrel⟩
  · rw [hd', hd]
    rfl
  · rw [hd', hd]
    exact congrArg some (hfg id d d' hrel)

theorem Rearranges.keys_eq (h : D'.Rearranges D) : D'.keys = D.keys := by
  have hmap : D'.map (fun _ _ => ()) = D.map fun _ _ => () := h.map_eq fun _ _ _ _ => rfl
  rw [← ExtTreeMap.keys_map (t := D'), hmap, ExtTreeMap.keys_map]

theorem Rearranges.size_eq (h : D'.Rearranges D) : D'.size = D.size := by
  rw [← ExtTreeMap.length_keys, h.keys_eq, ExtTreeMap.length_keys]

theorem Rearranges.insert {d d' : Derivation} (h : D'.Rearranges D) (hd : d'.Rearranges d)
    (id : EntityId) : Rearranges (D'.insert id d') (D.insert id d) := by
  intro x
  rw [getElem?_insert_eq, getElem?_insert_eq]
  split
  · exact .inr ⟨d', d, rfl, rfl, hd⟩
  · exact h x

theorem Rearranges.filter (h : D'.Rearranges D) (p : EntityId → Bool) :
    Rearranges (D'.filter fun id _ => p id) (D.filter fun id _ => p id) := by
  intro id
  rw [ExtTreeMap.getElem?_filter', ExtTreeMap.getElem?_filter']
  rcases h id with ⟨hd', hd⟩ | ⟨d', d, hd', hd, hrel⟩
  · rw [hd', hd]
    exact .inl ⟨rfl, rfl⟩
  · rw [hd', hd, Option.filter_some, Option.filter_some]
    split
    · exact .inr ⟨d', d, rfl, rfl, hrel⟩
    · exact .inl ⟨rfl, rfl⟩

/-! ## Components -/

theorem Rearranges.next_eq (h : D'.Rearranges D) : D'.next id = D.next id := by
  have hmem : (D'.contains · : EntityId → Bool) = (D.contains ·) := by
    funext x
    rw [Bool.eq_iff_iff]
    exact h.mem_iff
  rw [next, next]
  rcases h id with ⟨hd', hd⟩ | ⟨d', d, hd', hd, hrel⟩
  · rw [hd', hd]
  · rw [hd', hd]
    dsimp only
    rw [hrel.origins, hmem]

theorem Rearranges.reach_eq (h : D'.Rearranges D) : D'.reach id = D.reach id := by
  have hvisit : ∀ rounds stack seen, D'.visit rounds stack seen = D.visit rounds stack seen := by
    intro rounds
    induction rounds with
    | zero => exact fun _ _ => rfl
    | succ rounds ih =>
      intro stack seen
      rw [visit, visit]
      split
      · rfl
      · rw [h.next_eq, ih]
  rw [reach, reach, hvisit, h.size_eq]

theorem Rearranges.reaches_eq (h : D'.Rearranges D) : D'.reaches = D.reaches :=
  h.map_eq fun _ _ _ _ => h.reach_eq

/-- The components are the same, one by one. -/
theorem Rearranges.components (h : D'.Rearranges D) :
    List.Forall₂ Rearranges D'.components D.components := by
  have hleaders : D'.leaders D'.reaches = D.leaders D.reaches := by
    rw [leaders, leaders, h.reaches_eq, h.keys_eq]
  rw [Derivations.components, Derivations.components, hleaders, h.reaches_eq,
    List.forall₂_map_left_iff, List.forall₂_map_right_iff, List.forall₂_same]
  exact fun leader _ => h.filter fun id => (around D.reaches leader).contains id

end Derivations

/-! ## Settling and resolving -/

namespace Settling

variable {members members' : Derivations}

theorem settle_of_rearranges (h : members'.Rearranges members)
    (outside : EntityId → PermissionSet) : settle members' outside = settle members outside := by
  have hround : ∀ x, round members' outside x = round members outside x :=
    fun x => h.map_eq fun _ _ _ hd => hd.combine_eq _
  have hfallback : ∀ x, fallback members' outside x = fallback members outside x := by
    intro x
    rw [fallback, fallback, hround]
    exact h.map_eq fun _ _ _ hd => by rw [hd.base]
  have hiterate : ∀ rounds x, iterate members' outside rounds x =
      iterate members outside rounds x := by
    intro rounds
    induction rounds with
    | zero => exact hfallback
    | succ rounds ih =>
      intro x
      rw [iterate, iterate, hround, ih]
  have hbases : bases members' = bases members := h.map_eq fun _ _ _ hd => hd.base
  rw [settle, settle, bound, bound, h.size_eq, hbases, hiterate]

end Settling

namespace Resolved

variable {members members' : Derivations} {w w' : Discovery}

theorem componentDependsOn_of_rearranges (h : members'.Rearranges members) (r : Resolved) :
    r.componentDependsOn members' = r.componentDependsOn members := by
  have hle : ∀ {members members' : Derivations}, members'.Rearranges members →
      ∀ x ∈ r.componentDependsOn members', x ∈ r.componentDependsOn members := by
    intro members members' h x hx
    obtain ⟨id, d', hd', hx⟩ := mem_componentDependsOn.mp hx
    obtain ⟨d, hd, hrel⟩ := h.exists_of_getElem? hd'
    rw [hrel.consulted, hrel.origins] at hx
    exact mem_componentDependsOn.mpr ⟨id, d, hd, hx⟩
  apply ExtTreeSet.ext_mem
  exact fun x => ⟨hle h x, hle h.symm x⟩

theorem addComponent_of_rearranges (h : members'.Rearranges members) (r : Resolved) :
    r.addComponent members' = r.addComponent members := by
  rw [addComponent, addComponent, Settling.settle_of_rearranges h,
    componentDependsOn_of_rearranges h]

end Resolved

namespace Discovery

variable {w w' : Discovery}

/-- A walk that has found the same entities, with rearranged derivations. -/
structure Rearranges (w' w : Discovery) : Prop where
  derivations : Derivations.Rearranges w'.derivations w.derivations
  remembered : w'.remembered = w.remembered

/-- What such walks have found is resolved alike. -/
theorem Rearranges.resolved_eq (h : w'.Rearranges w) : Resolved.of w' = Resolved.of w := by
  have hfold : ∀ {l l' : List Derivations} (r : Resolved),
      List.Forall₂ Derivations.Rearranges l' l →
      l'.foldl Resolved.addComponent r = l.foldl Resolved.addComponent r := by
    intro l l' r hl
    induction hl generalizing r with
    | nil => rfl
    | cons hfirst _ ih =>
      rw [List.foldl_cons, List.foldl_cons, Resolved.addComponent_of_rearranges hfirst, ih]
  rw [Resolved.of, Resolved.of, h.remembered]
  exact hfold w.remembered h.derivations.components

end Discovery
end PermissionGraph
