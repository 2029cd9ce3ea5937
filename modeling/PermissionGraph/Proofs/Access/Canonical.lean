import PermissionGraph.Proofs.Access.Settled

/-!
# PermissionGraph.Proofs.Access.Canonical

What the entities of a table of derivations hold, whatever walk finds it out. An entity is complete
when all that it reaches has a derivation; the complete entities make up a table that draws on
nothing outside, and resolving that table as a whole gives `Derivations.entries`.

* `entries_eq_of_part`: entries that settle a part of the table, and are right about what the part
  draws on outside, are right about the part. A part contains components whole or not at all.
* `entries_congr`: the entry of an entity is the same in every table that agrees on what the entity
  reaches.
* `IsComplete.induction`: what is to be shown of complete entities can be shown component by
  component.
* `exists_fits`, `held_settle`, `consulted_subset`, `dependsOn_eq_of_tied`: what an entry says.
-/

namespace PermissionGraph
namespace Derivations

open Std

variable {D E ds members : Derivations} {R : Entries} {id other : EntityId} {e : MemoEntry}

/-! ## Parts -/

/-- A table taken from another, with components taken whole or not at all. -/
structure IsPart (D ds : Derivations) : Prop where
  agree : ∀ {id : EntityId} {d : Derivation}, ds[id]? = some d → D[id]? = some d
  whole : ∀ {id other : EntityId}, id ∈ ds → D.Tied id other → other ∈ ds

theorem IsPart.getElem?_eq (h : D.IsPart ds) (hid : id ∈ ds) : ds[id]? = D[id]? := by
  obtain ⟨d, hd⟩ := mem_iff_getElem?.mp hid
  rw [hd, h.agree hd]

theorem IsPart.mem (h : D.IsPart ds) (hid : id ∈ ds) : id ∈ D := by
  obtain ⟨d, hd⟩ := mem_iff_getElem?.mp hid
  exact mem_of_getElem? (h.agree hd)

theorem IsPart.reaches (h : D.IsPart ds) (hr : ds.Reaches id other) : D.Reaches id other := by
  induction hr with
  | refl => exact .refl
  | tail _ hbc ih =>
    obtain ⟨d, hd, ho⟩ := hbc
    exact ih.trans (Draws.reaches ⟨d, h.agree hd, ho⟩)

/-- Between tied entities every step is one between entities tied to them, so it is in the part. -/
theorem IsPart.reaches_of_tied (h : D.IsPart ds) (hid : id ∈ ds) (ht : D.Tied id other) :
    ds.Reaches id other := by
  obtain ⟨hr, hback⟩ := ht
  induction hr with
  | refl => exact .refl
  | @tail b c hb hbc ih =>
    have hbid : D.Reaches b id := (Draws.reaches hbc).trans hback
    obtain ⟨d, hd, ho⟩ := hbc
    rw [← h.getElem?_eq (h.whole hid ⟨hb, hbid⟩)] at hd
    exact (ih hbid).trans (Draws.reaches ⟨d, hd, ho⟩)

theorem IsPart.tied_iff (h : D.IsPart ds) (hid : id ∈ ds) : ds.Tied id other ↔ D.Tied id other := by
  constructor
  · rintro ⟨h₁, h₂⟩
    exact ⟨h.reaches h₁, h.reaches h₂⟩
  · intro ht
    exact ⟨h.reaches_of_tied hid ht, h.reaches_of_tied (h.whole hid ht) ht.symm⟩

theorem IsPart.mem_components_iff (h : D.IsPart ds) (hid : id ∈ ds) (hin : id ∈ members) :
    members ∈ ds.components ↔ IsComponent D members := by
  rw [Derivations.mem_components_iff]
  constructor
  · rintro ⟨hc, _⟩
    refine ⟨fun hd => h.agree (hc.agree hd), fun {x} hx other => ?_⟩
    have hxds : x ∈ ds := mem_of_tied hid ((hc.mem_iff hin x).mp hx)
    exact (hc.mem_iff hx other).trans (h.tied_iff hxds)
  · intro hc
    have hall : ∀ {x}, x ∈ members → x ∈ ds := fun hx => h.whole hid ((hc.mem_iff hin _).mp hx)
    refine ⟨⟨fun hd => ?_, fun hx other => ?_⟩, id, hin⟩
    · rw [h.getElem?_eq (hall (mem_of_getElem? hd)), hc.agree hd]
    · exact (hc.mem_iff hx other).trans (h.tied_iff (hall hx)).symm

theorem IsPart.settles (hE : D.IsPart E) (h : D.IsPart ds) (hsub : ∀ id ∈ ds, id ∈ E)
    (hR : R.Settles E) : R.Settles ds := by
  intro members hmem id hin
  have hid := mem_of_mem_component hmem hin
  have hc := (h.mem_components_iff hid hin).mp hmem
  exact hR members ((hE.mem_components_iff (hsub id hid) hin).mpr hc) id hin

/-! ## Complete entities -/

/-- Everything that an entity reaches has a derivation. -/
def IsComplete (D : Derivations) (id : EntityId) : Prop := ∀ x, D.Reaches id x → x ∈ D

theorem IsComplete.of_reaches (h : D.IsComplete id) (hr : D.Reaches id other) :
    D.IsComplete other :=
  fun x hx => h x (hr.trans hx)

theorem IsComplete.mem (h : D.IsComplete id) : id ∈ D := h id .refl

theorem IsComplete.of_agree (h : D.IsComplete id) (ha : ∀ y, D.Reaches id y → E[y]? = D[y]?) :
    E.IsComplete id := by
  intro x hx
  have hx' := (reaches_congr ha).mp hx
  obtain ⟨d, hd⟩ := mem_iff_getElem?.mp (h x hx')
  exact mem_of_getElem? ((ha x hx').trans hd)

open Classical in
/-- The complete entities of a table. -/
noncomputable def complete (D : Derivations) : Derivations :=
  D.filter fun id _ => decide (D.IsComplete id)

theorem mem_complete : id ∈ D.complete ↔ D.IsComplete id := by
  simp only [complete, ExtTreeMap.mem_filter, ExtTreeMap.getKey_eq, decide_eq_true_eq]
  exact ⟨fun ⟨_, h⟩ => h, fun h => ⟨h.mem, h⟩⟩

theorem isPart_complete : D.IsPart D.complete where
  agree hd := by
    rw [complete, ExtTreeMap.getElem?_filter'] at hd
    exact (Option.filter_eq_some_iff.mp hd).1
  whole hid ht := mem_complete.mpr ((mem_complete.mp hid).of_reaches ht.1)

/-- What is held on each complete entity, and what that rests on. -/
noncomputable def entries (D : Derivations) : Entries :=
  Resolved.entries (.of { derivations := D.complete })

theorem settles_entries : D.entries.Settles D.complete :=
  Resolved.settles_of (by simp)

theorem isComplete_of_entries (h : D.entries id = some e) : D.IsComplete id := by
  rw [← mem_complete]
  by_contra hid
  have hnone : D.entries id = none := by
    rw [entries, Resolved.entries, Resolved.getElem?_of_remembered (by simp) hid]
    simp
  rw [hnone] at h
  cases h

theorem exists_entries (h : D.IsComplete id) : ∃ e, D.entries id = some e := by
  obtain ⟨members, hmem, hin⟩ := exists_component (mem_complete.mpr h)
  obtain ⟨e, he, _⟩ := settles_entries members hmem id hin
  exact ⟨e, he⟩

theorem exists_fits (h : D.entries id = some e) :
    ∃ members, IsComponent D members ∧ id ∈ members ∧ D.entries.Fits members id e := by
  have hid := mem_complete.mpr (isComplete_of_entries h)
  obtain ⟨members, hmem, hin⟩ := exists_component hid
  obtain ⟨e', he', hfit⟩ := settles_entries members hmem id hin
  rw [h] at he'
  cases he'
  exact ⟨members, (isPart_complete.mem_components_iff hid hin).mp hmem, hin, hfit⟩

theorem fits_of_isComponent (h : D.entries id = some e) (hc : IsComponent D members)
    (hin : id ∈ members) : D.entries.Fits members id e := by
  obtain ⟨found, hfound, hin', hfit⟩ := exists_fits h
  rw [hc.ext hfound hin hin']
  exact hfit

theorem IsComplete.exists_component (h : D.IsComplete id) :
    ∃ members, IsComponent D members ∧ id ∈ members ∧ ∀ m ∈ members, D.IsComplete m := by
  have hid := mem_complete.mpr h
  obtain ⟨members, hmem, hin⟩ := Derivations.exists_component hid
  refine ⟨members, (isPart_complete.mem_components_iff hid hin).mp hmem, hin, fun m hm => ?_⟩
  exact mem_complete.mp (mem_of_mem_component hmem hm)

/-- What holds of the members of a complete component, once it holds of all that they draw on
outside, holds of every complete entity. -/
theorem IsComplete.induction {P : EntityId → Prop}
    (hstep : ∀ members, IsComponent D members → (∀ m ∈ members, D.IsComplete m) →
      (∀ m ∈ members, ∀ o, D.Draws m o → o ∉ members → P o) → ∀ m ∈ members, P m)
    (h : D.IsComplete id) : P id := by
  refine component_induction (fun members hmem ih m hm => ?_) id (mem_complete.mpr h)
  have hall : ∀ x ∈ members, D.IsComplete x :=
    fun x hx => mem_complete.mp (mem_of_mem_component hmem hx)
  have hc := (isPart_complete.mem_components_iff (mem_complete.mpr (hall m hm)) hm).mp hmem
  refine hstep members hc hall (fun x hx o hdraws hnot => ?_) m hm
  have hx' := mem_complete.mpr (hall x hx)
  have ho := mem_complete.mpr ((hall x hx).of_reaches hdraws.reaches)
  obtain ⟨d, hd, hod⟩ := hdraws
  exact ih x hx o ho ⟨d, (isPart_complete.getElem?_eq hx').trans hd, hod⟩ hnot

theorem held_settle (hc : IsComponent D members) (hall : ∀ m ∈ members, D.IsComplete m) :
    Settling.held D.entries.permissions (Settling.settle members D.entries.permissions) =
      D.entries.permissions := by
  funext x
  by_cases hx : x ∈ members
  · obtain ⟨e, he⟩ := exists_entries (hall x hx)
    rw [Settling.held, (fits_of_isComponent he hc hx).permissions, Entries.permissions, he]
  · have hnone : (Settling.settle members D.entries.permissions)[x]? = none := by
      apply ExtTreeMap.getElem?_eq_none
      rwa [Settling.over_settle]
    rw [Settling.held, hnone]

/-- On a complete component that stabilises, what the entries say is what derivations combine from
what they say. -/
theorem permissions_entries_eq_combine (hc : IsComponent D members)
    (hall : ∀ m ∈ members, D.IsComplete m) (hin : id ∈ members)
    (h : Settling.Stabilises members D.entries.permissions) {d : Derivation}
    (hd : D[id]? = some d) :
    D.entries.permissions id = d.combine D.entries.permissions := by
  obtain ⟨n, _, hstable, hsettle⟩ := h
  have hheld := held_settle hc hall
  rw [hsettle] at hheld
  have hround := @Settling.held_round members D.entries.permissions
    (Settling.after members D.entries.permissions n) id d ((hc.getElem?_eq hin).trans hd)
  rwa [hstable, hheld] at hround

/-- Entries that settle a part, and are right about what the part draws on outside, are right about
the part. -/
theorem entries_eq_of_part (h : D.IsPart ds) (hcomplete : ∀ id ∈ ds, D.IsComplete id)
    (hR : R.Settles ds) (hout : Settling.AgreeOutside ds R D.entries) :
    ∀ id ∈ ds, R id = D.entries id := by
  have hsub : ∀ id ∈ ds, id ∈ D.complete := fun id hid => mem_complete.mpr (hcomplete id hid)
  exact hR.unique (isPart_complete.settles h hsub settles_entries) hout

/-- The entry of an entity depends on the derivations of what the entity reaches only. -/
theorem entries_congr (h : D.IsComplete id) (ha : ∀ y, D.Reaches id y → E[y]? = D[y]?) :
    E.entries id = D.entries id := by
  classical
  let ds : Derivations := D.filter fun x _ => decide (D.Reaches id x)
  have hmem : ∀ x, x ∈ ds ↔ D.Reaches id x := by
    intro x
    simp only [ds, ExtTreeMap.mem_filter, ExtTreeMap.getKey_eq, decide_eq_true_eq]
    exact ⟨fun ⟨_, hx⟩ => hx, fun hx => ⟨h x hx, hx⟩⟩
  have hget : ∀ {x : EntityId} {d : Derivation}, ds[x]? = some d → D[x]? = some d := by
    intro x d hd
    simp only [ds, ExtTreeMap.getElem?_filter'] at hd
    exact (Option.filter_eq_some_iff.mp hd).1
  have hagree : ∀ x ∈ ds, ∀ y, D.Reaches x y → E[y]? = D[y]? :=
    fun x hx y hy => ha y (((hmem x).mp hx).trans hy)
  have hD : D.IsPart ds := ⟨hget, fun hx ht => (hmem _).mpr (((hmem _).mp hx).trans ht.1)⟩
  have hE : E.IsPart ds := by
    refine ⟨fun {x d} hd => ?_, fun {x y} hx ht => ?_⟩
    · rw [ha x ((hmem x).mp (mem_of_getElem? hd)), hget hd]
    · exact hD.whole hx ((tied_congr (hagree x hx)).mp ht)
  have hcomplete : ∀ x ∈ ds, D.IsComplete x := fun x hx => h.of_reaches ((hmem x).mp hx)
  have hsettles : D.entries.Settles ds :=
    isPart_complete.settles hD (fun x hx => mem_complete.mpr (hcomplete x hx)) settles_entries
  have hclosed : Settling.AgreeOutside ds D.entries E.entries := by
    intro x d hd o ho hnot
    have hx := (hmem x).mp (mem_of_getElem? hd)
    exact absurd ((hmem o).mpr (hx.trans (Draws.reaches ⟨d, hget hd, ho⟩))) hnot
  exact (entries_eq_of_part hE (fun x hx => (hcomplete x hx).of_agree (hagree x hx)) hsettles
    hclosed id ((hmem id).mpr .refl)).symm

/-! ## What an entry rests on -/

theorem dependsOn_eq_of_tied (h : D.entries id = some e) (ht : D.Tied id other) :
    ∃ e', D.entries other = some e' ∧ e'.dependsOn = e.dependsOn := by
  obtain ⟨members, hc, hin, hfit⟩ := exists_fits h
  obtain ⟨e', he'⟩ := exists_entries ((isComplete_of_entries h).of_reaches ht.1)
  have hfit' := fits_of_isComponent he' hc ((hc.mem_iff hin other).mpr ht)
  refine ⟨e', he', ?_⟩
  apply ExtTreeSet.ext_mem
  intro x
  rw [hfit'.dependsOn, hfit.dependsOn]

theorem dependsOn_subset_of_draws (h : D.entries id = some e) (hd : D.Draws id other)
    {e' : MemoEntry} (h' : D.entries other = some e') : ∀ x ∈ e'.dependsOn, x ∈ e.dependsOn := by
  intro x hx
  obtain ⟨members, hc, hin, hfit⟩ := exists_fits h
  by_cases ho : other ∈ members
  · obtain ⟨e'', he'', heq⟩ := dependsOn_eq_of_tied h ((hc.mem_iff hin other).mp ho)
    rw [h'] at he''
    cases he''
    rwa [← heq]
  · obtain ⟨d, hget, hod⟩ := hd
    obtain ⟨d', hd'⟩ := mem_iff_getElem?.mp hin
    have hdd : d' = d := Option.some_inj.mp ((hc.agree hd').symm.trans hget)
    rw [hdd] at hd'
    refine (hfit.dependsOn x).mpr ⟨id, d, hd', .inr ⟨other, hod, .inr ⟨ho, ?_⟩⟩⟩
    rw [Entries.dependsOn, h']
    exact hx

theorem consulted_subset (h : D.entries id = some e) (hr : D.Reaches id other) {d : Derivation}
    (hd : D[other]? = some d) : ∀ x ∈ d.consulted, x ∈ e.dependsOn := by
  induction hr using Relation.ReflTransGen.head_induction_on generalizing e with
  | refl =>
    intro x hx
    obtain ⟨members, hc, hin, hfit⟩ := exists_fits h
    obtain ⟨d', hd'⟩ := mem_iff_getElem?.mp hin
    have hdd : d' = d := Option.some_inj.mp ((hc.agree hd').symm.trans hd)
    rw [hdd] at hd'
    exact (hfit.dependsOn x).mpr ⟨other, d, hd', .inl hx⟩
  | @head a b hab _ ih =>
    intro x hx
    obtain ⟨e', he'⟩ := exists_entries ((isComplete_of_entries h).of_reaches hab.reaches)
    exact dependsOn_subset_of_draws h hab he' x (ih he' x hx)

end Derivations
end PermissionGraph
