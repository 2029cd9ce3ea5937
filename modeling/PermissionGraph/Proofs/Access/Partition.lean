import PermissionGraph.Proofs.Access.Reach

/-!
# PermissionGraph.Proofs.Access.Partition

The components of a table of derivations. They are exactly the classes of entities that are tied to
each other (`mem_components_iff`), every entity of the table is in one (`exists_component`), no two
share an entity (`components_disjoint`), and an earlier one never draws on a later one
(`components_ordered`): what it reaches would have to be more than what itself is reached from. So
what is to be shown of every entity can be shown component by component (`component_induction`).
-/

namespace PermissionGraph
namespace Derivations

open Std

variable {D ds a b members : Derivations} {id other l : EntityId}

/-- A table of all the entities that are tied to one of them, each with its derivation. -/
structure IsComponent (D members : Derivations) : Prop where
  agree : ∀ {id : EntityId} {d : Derivation}, members[id]? = some d → D[id]? = some d
  mem_iff : ∀ {id : EntityId}, id ∈ members → ∀ other, other ∈ members ↔ D.Tied id other

theorem IsComponent.getElem?_eq (h : IsComponent D members) (hid : id ∈ members) :
    members[id]? = D[id]? := by
  obtain ⟨d, hd⟩ := mem_iff_getElem?.mp hid
  rw [hd, h.agree hd]

theorem IsComponent.ext (ha : IsComponent D a) (hb : IsComponent D b) (h₁ : id ∈ a)
    (h₂ : id ∈ b) : a = b := by
  apply ExtTreeMap.ext_getElem?
  intro other
  have hmem : other ∈ a ↔ other ∈ b := (ha.mem_iff h₁ other).trans (hb.mem_iff h₂ other).symm
  by_cases h : other ∈ a
  · rw [ha.getElem?_eq h, hb.getElem?_eq (hmem.mp h)]
  · rw [ExtTreeMap.getElem?_eq_none h, ExtTreeMap.getElem?_eq_none (hmem.not.mp h)]

theorem getD_reaches (h : id ∈ ds) : ds.reaches.getD id ∅ = ds.reach id := by
  obtain ⟨d, hd⟩ := mem_iff_getElem?.mp h
  simp [ExtTreeMap.getD_eq_getD_getElem?, hd]

theorem mem_of_mem_getD_reaches (h : other ∈ ds.reaches.getD id ∅) : id ∈ ds := by
  cases hd : ds[id]? with
  | none => simp [ExtTreeMap.getD_eq_getD_getElem?, hd] at h
  | some d => exact mem_of_getElem? hd

theorem mem_around_reaches (h : id ∈ ds) :
    other ∈ around ds.reaches id ↔ ds.Tied id other := by
  rw [mem_around, getD_reaches h, mem_reach h]
  constructor
  · rintro ⟨⟨hr, _⟩, hb⟩
    have hother := mem_of_mem_getD_reaches hb
    rw [getD_reaches hother, mem_reach hother] at hb
    exact ⟨hr, hb.1⟩
  · intro ht
    have hother := mem_of_tied h ht
    rw [getD_reaches hother, mem_reach hother]
    exact ⟨⟨ht.1, hother⟩, ht.2, h⟩

theorem around_eq_of_tied (h : id ∈ ds) (ht : ds.Tied id other) :
    around ds.reaches id = around ds.reaches other := by
  apply ExtTreeSet.ext_mem
  intro x
  rw [mem_around_reaches h, mem_around_reaches (mem_of_tied h ht)]
  exact ⟨fun hx => ht.symm.trans hx, fun hx => ht.trans hx⟩

theorem mem_leaders :
    l ∈ ds.leaders ds.reaches ↔ l ∈ ds ∧ (around ds.reaches l).toList.head? = some l := by
  rw [leaders, mem_sortBy, List.mem_filter, ExtTreeMap.mem_keys, beq_iff_eq]

theorem exists_leader (h : id ∈ ds) : ∃ l ∈ ds.leaders ds.reaches, ds.Tied id l := by
  have hself : id ∈ (around ds.reaches id).toList :=
    ExtTreeSet.mem_toList.mpr ((mem_around_reaches h).mpr .refl)
  cases hl : (around ds.reaches id).toList with
  | nil =>
    rw [hl] at hself
    exact absurd hself List.not_mem_nil
  | cons l rest =>
    have hmem : l ∈ (around ds.reaches id).toList := by
      rw [hl]
      exact List.mem_cons_self
    have ht := (mem_around_reaches h).mp (ExtTreeSet.mem_toList.mp hmem)
    refine ⟨l, mem_leaders.mpr ⟨mem_of_tied h ht, ?_⟩, ht⟩
    rw [← around_eq_of_tied h ht, hl]
    rfl

theorem leader_unique {m : EntityId} (hl : l ∈ ds.leaders ds.reaches)
    (hm : m ∈ ds.leaders ds.reaches) (h : ds.Tied l m) : l = m := by
  obtain ⟨hlds, hl⟩ := mem_leaders.mp hl
  obtain ⟨_, hm⟩ := mem_leaders.mp hm
  rw [around_eq_of_tied hlds h, hm] at hl
  exact (Option.some_inj.mp hl).symm

/-- The component that an entity is in. -/
def componentOf (ds : Derivations) (id : EntityId) : Derivations :=
  ds.filter fun other _ => (around ds.reaches id).contains other

theorem components_eq : ds.components = (ds.leaders ds.reaches).map ds.componentOf := rfl

theorem mem_componentOf (h : id ∈ ds) :
    other ∈ ds.componentOf id ↔ ds.Tied id other := by
  rw [← mem_around_reaches h, componentOf, ExtTreeMap.mem_filter]
  constructor
  · rintro ⟨_, hc⟩
    simpa using hc
  · intro hc
    exact ⟨mem_of_tied h ((mem_around_reaches h).mp hc), by simpa using hc⟩

theorem isComponent_componentOf (h : id ∈ ds) : IsComponent ds (ds.componentOf id) where
  agree {x d} hx := by
    rw [componentOf, ExtTreeMap.getElem?_filter'] at hx
    exact (Option.filter_eq_some_iff.mp hx).1
  mem_iff {x} hx other := by
    have ht := (mem_componentOf h).mp hx
    rw [mem_componentOf h]
    exact ⟨fun ho => ht.symm.trans ho, fun ho => ht.trans ho⟩

theorem exists_component (h : id ∈ ds) : ∃ members ∈ ds.components, id ∈ members := by
  obtain ⟨l, hl, ht⟩ := exists_leader h
  refine ⟨ds.componentOf l, List.mem_map_of_mem hl, ?_⟩
  exact (mem_componentOf (mem_leaders.mp hl).1).mpr ht.symm

theorem isComponent_of_mem (h : members ∈ ds.components) : IsComponent ds members := by
  obtain ⟨l, hl, rfl⟩ := List.mem_map.mp (components_eq ▸ h)
  exact isComponent_componentOf (mem_leaders.mp hl).1

theorem exists_mem_of_mem_components (h : members ∈ ds.components) : ∃ id, id ∈ members := by
  obtain ⟨l, hl, rfl⟩ := List.mem_map.mp (components_eq ▸ h)
  exact ⟨l, (mem_componentOf (mem_leaders.mp hl).1).mpr .refl⟩

theorem mem_of_mem_component (h : members ∈ ds.components) (hid : id ∈ members) : id ∈ ds := by
  obtain ⟨d, hd⟩ := mem_iff_getElem?.mp hid
  exact mem_of_getElem? ((isComponent_of_mem h).agree hd)

/-- The components of a table are the classes of entities of it that are tied to each other. -/
theorem mem_components_iff :
    members ∈ ds.components ↔ IsComponent ds members ∧ ∃ id, id ∈ members := by
  constructor
  · intro h
    exact ⟨isComponent_of_mem h, exists_mem_of_mem_components h⟩
  · rintro ⟨hc, id, hid⟩
    obtain ⟨d, hd⟩ := mem_iff_getElem?.mp hid
    obtain ⟨found, hfound, hmem⟩ := exists_component (mem_of_getElem? (hc.agree hd))
    rw [hc.ext (isComponent_of_mem hfound) hid hmem]
    exact hfound

theorem nodup_leaders : (ds.leaders ds.reaches).Nodup := by
  rw [leaders, (sortBy_perm _ _).nodup_iff]
  exact ds.nodup_keys.filter _

theorem pairwise_leaders :
    (ds.leaders ds.reaches).Pairwise fun l m =>
      (ds.reaches.getD l ∅).size ≤ (ds.reaches.getD m ∅).size := by
  have h := @pairwise_sortBy EntityId
    (fun l m => decide ((ds.reaches.getD l ∅).size ≤ (ds.reaches.getD m ∅).size))
    (fun x y z hxy hyz => by simp only [decide_eq_true_eq] at *; omega)
    (fun x y => by simp only [decide_eq_true_eq]; omega)
    (ds.keys.filter fun id => (around ds.reaches id).toList.head? == some id)
  exact h.imp fun hle => of_decide_eq_true hle

theorem components_disjoint :
    ds.components.Pairwise fun a b => ∀ id ∈ a, id ∉ b := by
  rw [components_eq, List.pairwise_map]
  refine (List.Pairwise.and_mem.mp nodup_leaders).imp ?_
  rintro l m ⟨hl, hm, hne⟩ id hla hma
  have hlds := (mem_leaders.mp hl).1
  have hmds := (mem_leaders.mp hm).1
  have ht := ((mem_componentOf hlds).mp hla).trans ((mem_componentOf hmds).mp hma).symm
  exact hne (leader_unique hl hm ht)

/-- What an entity reaches is more than what an entity reaches that it draws on and is not tied
to. -/
theorem reach_size_lt (h : id ∈ ds) (hother : other ∈ ds) (hr : ds.Reaches id other)
    (hn : ¬ ds.Reaches other id) : (ds.reach other).size < (ds.reach id).size := by
  apply size_lt_size (x := id)
  · intro x hx
    rw [mem_reach hother] at hx
    exact (mem_reach h).mpr ⟨hr.trans hx.1, hx.2⟩
  · exact (mem_reach h).mpr ⟨.refl, h⟩
  · intro hx
    exact hn ((mem_reach hother).mp hx).1

theorem reach_size_eq_of_tied (h : id ∈ ds) (ht : ds.Tied id other) :
    (ds.reach id).size = (ds.reach other).size := by
  have hother := mem_of_tied h ht
  have he : ds.reach id = ds.reach other := by
    apply ExtTreeSet.ext_mem
    intro x
    rw [mem_reach h, mem_reach hother]
    exact ⟨fun hx => ⟨ht.2.trans hx.1, hx.2⟩, fun hx => ⟨ht.1.trans hx.1, hx.2⟩⟩
  rw [he]

theorem components_ordered :
    ds.components.Pairwise fun a b =>
      ∀ (id : EntityId) (d : Derivation), a[id]? = some d → ∀ o ∈ d.origins, o ∉ b := by
  rw [components_eq, List.pairwise_map]
  refine (List.Pairwise.and_mem.mp (pairwise_leaders.and nodup_leaders)).imp ?_
  rintro l m ⟨hl, hm, hle, hne⟩ id d hd o ho hob
  have hlds := (mem_leaders.mp hl).1
  have hmds := (mem_leaders.mp hm).1
  have hid := (mem_componentOf hlds).mp (mem_of_getElem? hd)
  have hod := (mem_componentOf hmds).mp hob
  have hfound := (isComponent_componentOf hlds).agree hd
  have hr : ds.Reaches l m := (hid.1.trans (Draws.reaches ⟨d, hfound, ho⟩)).trans hod.2
  have hn : ¬ ds.Reaches m l := fun hback => hne (leader_unique hl hm ⟨hr, hback⟩)
  have hlt := reach_size_lt hlds hmds hr hn
  rw [getD_reaches hlds, getD_reaches hmds] at hle
  omega

/-- What holds of the members of a component, once it holds of all that they draw on outside, holds
of every entity. The induction is on how much an entity reaches, which is less for what its
component draws on. -/
theorem component_induction {P : EntityId → Prop}
    (hstep : ∀ members ∈ ds.components,
      (∀ m ∈ members, ∀ o ∈ ds, ds.Draws m o → o ∉ members → P o) → ∀ m ∈ members, P m) :
    ∀ id ∈ ds, P id := by
  intro id hid
  generalize hn : (ds.reach id).size = n
  induction n using Nat.strong_induction_on generalizing id with
  | _ n ih =>
    obtain ⟨members, hmem, hin⟩ := exists_component hid
    have hc := isComponent_of_mem hmem
    refine hstep members hmem (fun m hm o ho hdraws hnot => ?_) id hin
    have ht : ds.Tied id m := (hc.mem_iff hin m).mp hm
    have hback : ¬ ds.Reaches o m :=
      fun hback => hnot ((hc.mem_iff hm o).mpr ⟨hdraws.reaches, hback⟩)
    have hlt := reach_size_lt (mem_of_mem_component hmem hm) ho hdraws.reaches hback
    have heq := reach_size_eq_of_tied hid ht
    exact ih _ (by omega) o ho rfl

end Derivations
end PermissionGraph
