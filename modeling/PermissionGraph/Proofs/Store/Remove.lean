import PermissionGraph.Proofs.Store.Edit

/-!
# PermissionGraph.Proofs.Store.Remove

Removing an entity. With a node go its relationships, one after the other (`Snapshot.Removes`), and
with every entity the grants held by it or on it. The changes name all of them.

* `on_removeRelationships`, `exists_removes`: relationships that exist can be removed.
* `on_removeEntity_cases`: an entity of either kind can be removed.
* `leads_removeRelationship`, `Removes.leads`, `leads_removeNode`, `leads_removeEntity`: what that
  leads to.
-/

namespace PermissionGraph

open Std

namespace Snapshot

variable {s s' : Snapshot} {id x r source target : EntityId} {e : Entity} {changes : List Change}

/-- What is recorded of the record and the grants of an entity that is removed. -/
theorem lookup_of_untouched
    (hx : ∀ c ∈ (s.dropRecord id).1, x ∉ c.touched) :
    x ≠ id ∧ ∀ q, (s.grants.removeEntity id).2.lookup q x = s.grants.lookup q x := by
  have hxid : x ≠ id := by
    have h := hx (.entity id) (List.mem_append_right _ List.mem_cons_self)
    simpa [Change.touched] using h
  refine ⟨hxid, fun q => ?_⟩
  rw [Grants.lookup_removeEntity]
  split
  · next hor =>
    have hq : q = id := hor.resolve_right hxid
    rw [Grants.lookup_eq]
    cases hrow : s.grants.rows[(⟨q, x⟩ : GrantKey)]? with
    | none => rfl
    | some held =>
      have hmem : (⟨q, x⟩ : GrantKey) ∈ (s.grants.removeEntity id).1 :=
        Grants.mem_removed.mpr ⟨.inl hq, held, hrow⟩
      have hgrant : Change.grant q x ∈ (s.dropRecord id).1 :=
        List.mem_append_left _ (List.mem_map.mpr ⟨⟨q, x⟩, hmem, rfl⟩)
      exact absurd List.mem_cons_self (hx _ hgrant)
  · rfl

theorem getElem?_removeEntity {g : Grants} {key : GrantKey} {held : PermissionSet}
    (h : (g.removeEntity id).2.rows[key]? = some held) :
    g.rows[key]? = some held ∧ key.principal ≠ id ∧ key.entity ≠ id := by
  rw [Grants.rows_removeEntity, ExtTreeMap.getElem?_filter'] at h
  obtain ⟨hrow, hmentions⟩ := Option.filter_eq_some_iff.mp h
  simp [GrantKey.mentions] at hmentions
  exact ⟨hrow, hmentions.1, hmentions.2⟩

/-! ## Relationships -/

section Relationship

theorem shape?_removeRelationship (y : EntityId) :
    (s.removeRelationship id source target).2.shape? y = if id = y then none else s.shape? y :=
  shape?_erase (s := s) rfl y

theorem shape?_removeRelationship_of_ne (h : id ≠ x) :
    (s.removeRelationship id source target).2.shape? x = s.shape? x := by
  rw [shape?_removeRelationship, if_neg h]

theorem links_removeRelationship {from' to' : EntityId} :
    (s.removeRelationship id source target).2.Links r from' to' ↔
      s.Links r from' to' ∧ r ≠ id := by
  by_cases hr : id = r
  · subst hr
    constructor
    · rintro ⟨_, h⟩
      rw [shape?_removeRelationship, if_pos rfl] at h
      cases h
    · rintro ⟨_, h⟩
      exact absurd rfl h
  · rw [links_congr (shape?_removeRelationship_of_ne hr)]
    exact ⟨fun h => ⟨h, fun hid => hr hid.symm⟩, And.left⟩

theorem isNode_removeRelationship (h : s.Links id source target) :
    (s.removeRelationship id source target).2.IsNode x ↔ s.IsNode x := by
  by_cases hx : id = x
  · subst hx
    constructor
    · rintro ⟨_, h⟩
      rw [shape?_removeRelationship, if_pos rfl] at h
      cases h
    · intro hnode
      exact absurd h (not_links_of_isNode hnode)
  · exact isNode_congr (shape?_removeRelationship_of_ne hx)

theorem consistent_removeRelationship (hs : s.Consistent) (h : s.Links id source target) :
    (s.removeRelationship id source target).2.Consistent := by
  have hrow := hs.relationships.mpr h
  have hadjacency : (s.removeRelationship id source target).2.adjacency =
      s.adjacency.removeRelationship id := rfl
  constructor
  · intro y
    rw [isNode_removeRelationship h, hadjacency, ← hs.mem_nodes]
    exact Adjacency.mem_nodes_removeRelationship
  · intro r from' to'
    rw [links_removeRelationship, hadjacency, ← hs.relationships]
    simp only [Adjacency.removeRelationship, hrow]
    rw [ExtTreeMap.getElem?_erase]
    split
    · next hr =>
      rw [Std.compare_eq_iff_eq] at hr
      simp [hr]
    · next hr =>
      rw [Std.compare_eq_iff_eq] at hr
      exact ⟨fun hget => ⟨hget, fun hid => hr hid.symm⟩, And.left⟩
  · intro d r y
    simp only [links_removeRelationship]
    rw [hadjacency, Adjacency.mem_directed_removeRelationship hrow, hs.mem_directed]
    constructor
    · rintro ⟨⟨from', to', hl, hy⟩, hnot⟩
      refine ⟨from', to', ⟨hl, ?_⟩, hy⟩
      rintro rfl
      obtain ⟨rfl, rfl⟩ := h.unique hl
      exact hnot ⟨rfl, hy⟩
    · rintro ⟨from', to', ⟨hl, hr⟩, hy⟩
      exact ⟨⟨from', to', hl, hy⟩, fun hand => hr hand.1⟩
  · intro r from' to' hl
    rw [isNode_removeRelationship h, isNode_removeRelationship h]
    exact hs.ends (links_removeRelationship.mp hl).1
  · intro key held hgrant
    obtain ⟨hgrant, _, hentity⟩ := getElem?_removeEntity hgrant
    obtain ⟨hheld, hnode, hshape⟩ := hs.grants hgrant
    rw [isNode_removeRelationship h, shape?_removeRelationship_of_ne hentity.symm]
    exact ⟨hheld, hnode, hshape⟩

theorem leads_removeRelationship (hs : s.Consistent) (h : s.Links id source target) :
    s.Leads (s.removeRelationship id source target).2 (s.removeRelationship id source target).1
      none := by
  have hs' := consistent_removeRelationship hs h
  have hentity := entity?_erase s (s.removeRelationship id source target).2 id rfl
  have hchanges : (s.removeRelationship id source target).1 =
      .relationship id source target :: (s.dropRecord id).1 := rfl
  refine ⟨hs', accounts_of (fun x hx => ?_) fun _ => rfl, rfl, fun x e he => ?_⟩
  · rw [hchanges] at hx
    have hxends : x ≠ id ∧ x ≠ source ∧ x ≠ target := by
      simpa [Change.touched] using hx (.relationship id source target) List.mem_cons_self
    obtain ⟨_, hlookup⟩ := lookup_of_untouched fun c hc => hx c (List.mem_cons_of_mem _ hc)
    refine ⟨by rw [hentity, if_neg hxends.1.symm], ?_, fun q => (hlookup q).symm⟩
    refine incidents_eq_of_ne id hs hs' (fun y hy => ?_) fun r from' to' hlinks hend => ?_
    · exact (shape?_removeRelationship_of_ne hy.symm).symm
    · have hl := hlinks.elim (fun h => h) fun hl => (links_removeRelationship.mp hl).1
      obtain ⟨hfrom, hto⟩ := hs.ends hl
      refine ⟨?_, ?_, ?_⟩
      · rintro rfl
        obtain ⟨rfl, rfl⟩ := h.unique hl
        exact hend.elim hxends.2.1 hxends.2.2
      · rintro rfl
        exact not_links_of_isNode hfrom h
      · rintro rfl
        exact not_links_of_isNode hto h
  · rw [hentity] at he
    split at he
    · cases he
    · exact .inl ⟨e, he⟩

/-! ### Several -/

/-- Relationships that exist are removed one after the other, with the changes of each. -/
inductive Removes : Snapshot → List EntityId → List Change → Snapshot → Prop where
  | nil {s : Snapshot} : Removes s [] [] s
  | cons {s s' : Snapshot} {id source target : EntityId} {l : List EntityId}
      {changes : List Change} (h : s.Links id source target)
      (hrest : Removes (s.removeRelationship id source target).2 l changes s') :
      Removes s (id :: l) ((s.removeRelationship id source target).1 ++ changes) s'

variable {l : List EntityId}

theorem on_removeRelationships (h : Removes s l changes s') :
    (removeRelationships l).on s = (.ok changes, s') := by
  induction h with
  | nil => rfl
  | @cons s s' id source target l changes h hrest ih =>
    obtain ⟨name, hname⟩ := h
    obtain ⟨e, he, _, hkind⟩ := exists_of_shape hname
    have hrequire := requireEntity_eq_ok_iff.mpr he
    have hends : e.endpoints? = some (source, target) := Entity.endpoints?_eq_some_iff.mpr hkind
    simp [removeRelationships, Action.on_bind, hrequire, hends, ih, Except.map]

/-- Relationships that are listed once each can be removed one after another. -/
theorem exists_removes (hnodup : l.Nodup) (h : ∀ r ∈ l, ∃ source target, s.Links r source target) :
    ∃ changes s', Removes s l changes s' := by
  induction l generalizing s with
  | nil => exact ⟨[], s, .nil⟩
  | cons r l ih =>
    obtain ⟨source, target, hlinks⟩ := h r List.mem_cons_self
    obtain ⟨hr, hnodup⟩ := List.nodup_cons.mp hnodup
    have hrest : ∀ x ∈ l, ∃ from' to',
        (s.removeRelationship r source target).2.Links x from' to' := by
      intro x hx
      obtain ⟨from', to', hl⟩ := h x (List.mem_cons_of_mem r hx)
      refine ⟨from', to', links_removeRelationship.mpr ⟨hl, ?_⟩⟩
      rintro rfl
      exact hr hx
    obtain ⟨changes, s', hremoves⟩ := ih hnodup hrest
    exact ⟨_, s', .cons hlinks hremoves⟩

theorem Removes.isNode_iff (h : Removes s l changes s') : s'.IsNode x ↔ s.IsNode x := by
  induction h with
  | nil => rfl
  | cons h _ ih => rw [ih, isNode_removeRelationship h]

/-- What is left is what is not in the list. -/
theorem Removes.links_iff (h : Removes s l changes s') :
    s'.Links r source target ↔ s.Links r source target ∧ r ∉ l := by
  induction h with
  | nil => simp
  | cons h _ ih => rw [ih, links_removeRelationship, List.mem_cons, not_or, and_assoc]

theorem Removes.leads (hs : s.Consistent) (h : Removes s l changes s') :
    s.Leads s' changes none := by
  induction h with
  | nil => exact .refl hs
  | cons h _ ih =>
    have hfirst := leads_removeRelationship hs h
    exact hfirst.trans (ih hfirst.consistent)

end Relationship

/-! ## Nodes -/

section Node

theorem shape?_removeNode (y : EntityId) :
    (s.removeNode id).2.shape? y = if id = y then none else s.shape? y :=
  shape?_erase (s := s) rfl y

theorem shape?_removeNode_of_ne (h : id ≠ x) : (s.removeNode id).2.shape? x = s.shape? x := by
  rw [shape?_removeNode, if_neg h]

theorem links_removeNode (h : s.IsNode id) :
    (s.removeNode id).2.Links r source target ↔ s.Links r source target := by
  by_cases hr : id = r
  · subst hr
    constructor
    · rintro ⟨_, hl⟩
      rw [shape?_removeNode, if_pos rfl] at hl
      cases hl
    · intro hl
      exact absurd hl (not_links_of_isNode h)
  · exact links_congr (shape?_removeNode_of_ne hr)

variable (hs : s.Consistent) (h : s.IsNode id)
  (hfree : ∀ r source target, s.Links r source target → source ≠ id ∧ target ≠ id)
include hs h hfree

theorem consistent_removeNode : (s.removeNode id).2.Consistent := by
  have hadjacency : (s.removeNode id).2.adjacency = s.adjacency.removeNode id := rfl
  have hnode : ∀ {y}, id ≠ y → ((s.removeNode id).2.IsNode y ↔ s.IsNode y) :=
    fun hy => isNode_congr (shape?_removeNode_of_ne hy)
  constructor
  · intro y
    rw [hadjacency]
    show y ∈ s.adjacency.nodes.erase id ↔ _
    rw [ExtTreeMap.mem_erase]
    by_cases hy : id = y
    · subst hy
      constructor
      · intro hmem
        simp at hmem
      · rintro ⟨_, hshape⟩
        rw [shape?_removeNode, if_pos rfl] at hshape
        cases hshape
    · rw [hnode hy, hs.mem_nodes]
      simp [hy]
  · intro r source target
    rw [links_removeNode h]
    exact hs.relationships
  · intro d r y
    simp only [links_removeNode h]
    rw [hadjacency, Adjacency.directed_removeNode]
    split
    · next hy =>
      subst hy
      constructor
      · intro hmem
        cases hmem
      · rintro ⟨source, target, hl, hid⟩
        obtain ⟨hsource, htarget⟩ := hfree r source target hl
        cases d with
        | outgoing => exact absurd hid.symm hsource
        | incoming => exact absurd hid.symm htarget
    · exact hs.mem_directed
  · intro r source target hl
    have hl := (links_removeNode h).mp hl
    obtain ⟨hsource, htarget⟩ := hfree r source target hl
    rw [hnode hsource.symm, hnode htarget.symm]
    exact hs.ends hl
  · intro key held hgrant
    obtain ⟨hgrant, hprincipal, hentity⟩ := getElem?_removeEntity hgrant
    rw [hnode hprincipal.symm, shape?_removeNode_of_ne hentity.symm]
    exact hs.grants hgrant

theorem leads_removeNode : s.Leads (s.removeNode id).2 (s.removeNode id).1 none := by
  have hs' := consistent_removeNode hs h hfree
  have hentity := entity?_erase s (s.removeNode id).2 id rfl
  refine ⟨hs', accounts_of (fun x hx => ?_) fun _ => rfl, rfl, fun x e he => ?_⟩
  · obtain ⟨hxid, hlookup⟩ := lookup_of_untouched hx
    refine ⟨by rw [hentity, if_neg hxid.symm], ?_, fun q => (hlookup q).symm⟩
    refine incidents_eq_of_ne id hs hs' (fun y hy => ?_) fun r source target hlinks _ => ?_
    · exact (shape?_removeNode_of_ne hy.symm).symm
    · have hl := hlinks.elim (fun hl => hl) (links_removeNode h).mp
      refine ⟨?_, hfree r source target hl⟩
      rintro rfl
      exact not_links_of_isNode h hl
  · rw [hentity] at he
    split at he
    · cases he
    · exact .inl ⟨e, he⟩

end Node

/-! ## Entities -/

theorem on_removeEntity_of_error {cause : StoreError} (h : s.requireEntity id = .error cause) :
    (removeEntity id).on s = (.error cause, s) := by
  simp [removeEntity, Action.on_bind, h]

/-- A relationship is removed alone, a node after all relationships that touch it. Neither fails. -/
theorem on_removeEntity_cases (hs : s.Consistent) (he : s.entity? id = some e) :
    (∃ source target, s.Links id source target ∧ (removeEntity id).on s =
      (.ok (s.removeRelationship id source target).1, (s.removeRelationship id source target).2)) ∨
    ∃ changes s', s.IsNode id ∧ Removes s (s.adjacency.touching id) changes s' ∧
      (removeEntity id).on s = (.ok (changes ++ (s'.removeNode id).1), (s'.removeNode id).2) := by
  have hrequire := requireEntity_eq_ok_iff.mpr he
  cases hends : e.endpoints? with
  | some ends =>
    refine .inl ⟨ends.1, ends.2, links_of_kind he (Entity.endpoints?_eq_some_iff.mp hends), ?_⟩
    simp [removeEntity, Action.on_bind, hrequire, hends]
  | none =>
    have hlinks : ∀ r ∈ s.adjacency.touching id, ∃ source target, s.Links r source target := by
      intro r hr
      obtain ⟨source, target, hlinks, _⟩ := hs.mem_touching.mp hr
      exact ⟨source, target, hlinks⟩
    obtain ⟨changes, s', hremoves⟩ := exists_removes
      (nodup_of_ascending (f := fun r => r) (s.adjacency.pairwise_touching id)) hlinks
    refine .inr ⟨changes, s', isNode_of_kind he (Entity.endpoints?_eq_none_iff.mp hends), hremoves,
      ?_⟩
    simp [removeEntity, Action.on_bind, hrequire, hends, on_removeRelationships hremoves,
      Except.map]

theorem leads_removeEntity (hs : s.Consistent) (he : s.entity? id = some e) :
    ∃ changes s', (removeEntity id).on s = (.ok changes, s') ∧ s.Leads s' changes none ∧
      changes ≠ [] := by
  rcases on_removeEntity_cases hs he with ⟨source, target, hlinks, hon⟩ | ⟨changes, s', hnode,
    hremoves, hon⟩
  · exact ⟨_, _, hon, leads_removeRelationship hs hlinks, List.cons_ne_nil _ _⟩
  · have hleads := hremoves.leads hs
    -- every relationship of the node was in the list, so none is left
    have hfree : ∀ r source target, s'.Links r source target → source ≠ id ∧ target ≠ id := by
      intro r source target hl
      obtain ⟨hl, hr⟩ := hremoves.links_iff.mp hl
      rw [hs.mem_touching] at hr
      exact ⟨fun hsource => hr ⟨source, target, hl, .inl hsource.symm⟩,
        fun htarget => hr ⟨source, target, hl, .inr htarget.symm⟩⟩
    refine ⟨_, _, hon, hleads.trans (leads_removeNode hleads.consistent
      (hremoves.isNode_iff.mpr hnode) hfree), fun hnil => ?_⟩
    have hlast := (List.append_eq_nil_iff.mp (List.append_eq_nil_iff.mp hnil).2).2
    cases hlast

end Snapshot
end PermissionGraph
