import PermissionGraph.Proofs.Access.Outlive
import PermissionGraph.Proofs.Store.Consistent

/-!
# PermissionGraph.Proofs.Store.Edit

What each edit of a snapshot leads to. An edit leads from one snapshot to another
(`Snapshot.Leads`) with changes that tell of everything that is different, and the snapshot it leads
to is consistent.

* `on_insertRelationship`, `on_modifyEntity`: of entities that exist, these edits do not fail.
* `leads_insertNode`, `leads_link`, `leads_modifyEntity`, `leads_grant`, `leads_revoke`,
  `leads_rules`: one lemma for each edit that removes no entity.
-/

namespace PermissionGraph

open Std

namespace Snapshot

variable {s s' s'' : Snapshot} {id x r source target : EntityId} {e : Entity}
  {changes more : List Change} {fresh : Option EntityId}

/-- An edit that leads from one snapshot to another. No entity comes into being except under the
fresh identifier. -/
structure Leads (s s' : Snapshot) (changes : List Change) (fresh : Option EntityId) : Prop where
  consistent : s'.Consistent
  accounts : s.view.Accounts s'.view changes
  version : s'.version = s.version
  born : ∀ (x : EntityId) (e : Entity), s'.entity? x = some e →
    (∃ e', s.entity? x = some e') ∨ fresh = some x

theorem Leads.refl (h : s.Consistent) : s.Leads s [] none :=
  ⟨h, .refl, rfl, fun _ e he => .inl ⟨e, he⟩⟩

theorem Leads.trans (h : s.Leads s' changes none) (h' : s'.Leads s'' more none) :
    s.Leads s'' (changes ++ more) none where
  consistent := h'.consistent
  accounts := h.accounts.trans h'.accounts
  version := h'.version.trans h.version
  born x e he := by
    rcases h'.born x e he with ⟨e', he'⟩ | hfresh
    · exact h.born x e' he'
    · cases hfresh

theorem accounts_of (h : ∀ x, (∀ c ∈ changes, x ∉ c.touched) →
      s.entity? x = s'.entity? x ∧ s.incidents x = s'.incidents x ∧
        ∀ q, s.grants.lookup q x = s'.grants.lookup q x)
    (hrules : (∀ c ∈ changes, c.affectsAll = false) → s.rules = s'.rules) :
    s.view.Accounts s'.view changes where
  agree x hx := by
    obtain ⟨hentity, hincidents, hlookup⟩ := h x hx
    exact ⟨congrArg Except.ok hentity, hincidents, fun q => congrArg Except.ok (hlookup q)⟩
  rules := hrules

/-! ## Tables of entities -/

theorem entity?_insert (s s' : Snapshot) (h : s'.entities = s.entities.insert id e)
    (y : EntityId) :
    s'.entity? y = if id = y then some e else s.entity? y := by
  rw [entity?, h, ExtTreeMap.getElem?_insert]
  simp only [Std.compare_eq_iff_eq]
  rfl

theorem entity?_erase (s s' : Snapshot) (id : EntityId) (h : s'.entities = s.entities.erase id)
    (y : EntityId) :
    s'.entity? y = if id = y then none else s.entity? y := by
  rw [entity?, h, ExtTreeMap.getElem?_erase]
  simp only [Std.compare_eq_iff_eq]
  rfl

theorem shape?_insert (h : s'.entities = s.entities.insert id e) (y : EntityId) :
    s'.shape? y = if id = y then some (e.typeName, e.kind) else s.shape? y := by
  rw [shape?, shape?, entity?_insert s s' h]
  split <;> rfl

theorem shape?_erase (h : s'.entities = s.entities.erase id) (y : EntityId) :
    s'.shape? y = if id = y then none else s.shape? y := by
  rw [shape?, shape?, entity?_erase s s' id h]
  split <;> rfl

theorem shape?_of_entity?_eq_none (h : s.entity? id = none) : s.shape? id = none := by
  rw [shape?, h]
  rfl

theorem ne_of_shape {shape : String × EntityKind} (h : s.shape? x = some shape)
    (hid : s.shape? id = none) : id ≠ x := by
  rintro rfl
  rw [hid] at h
  cases h

/-! ## Creating -/

theorem IsNode.ne_of_free (hfree : s.entity? id = none) (h : s.IsNode x) : id ≠ x := by
  obtain ⟨name, hname⟩ := h
  exact ne_of_shape hname (shape?_of_entity?_eq_none hfree)

theorem Links.ne_of_free (hs : s.Consistent) (hfree : s.entity? id = none)
    (h : s.Links r source target) : id ≠ r ∧ id ≠ source ∧ id ≠ target := by
  obtain ⟨hsource, htarget⟩ := hs.ends h
  obtain ⟨name, hname⟩ := h
  exact ⟨ne_of_shape hname (shape?_of_entity?_eq_none hfree), hsource.ne_of_free hfree,
    htarget.ne_of_free hfree⟩

section Node

variable {name : String}

theorem shape?_insertNode (y : EntityId) :
    (s.insertNode id name).shape? y = if id = y then some (name, .node) else s.shape? y :=
  shape?_insert (s := s) (e := .node name) rfl y

theorem shape?_insertNode_of_ne (h : id ≠ x) : (s.insertNode id name).shape? x = s.shape? x := by
  rw [shape?_insertNode, if_neg h]

theorem isNode_insertNode : (s.insertNode id name).IsNode id :=
  ⟨name, by rw [shape?_insertNode, if_pos rfl]⟩

theorem links_insertNode (hfree : s.entity? id = none) :
    (s.insertNode id name).Links r source target ↔ s.Links r source target := by
  by_cases hr : id = r
  · subst hr
    constructor
    · intro h
      exact absurd h (not_links_of_isNode isNode_insertNode)
    · rintro ⟨_, h⟩
      rw [shape?_of_entity?_eq_none hfree] at h
      cases h
  · exact links_congr (shape?_insertNode_of_ne hr)

theorem consistent_insertNode (hs : s.Consistent) (hfree : s.entity? id = none) :
    (s.insertNode id name).Consistent := by
  have hnode : ∀ {y}, s.IsNode y → (s.insertNode id name).IsNode y :=
    fun hy => (isNode_congr (shape?_insertNode_of_ne (hy.ne_of_free hfree))).mpr hy
  constructor
  · intro y
    show y ∈ s.adjacency.nodes.insert id {} ↔ _
    rw [ExtTreeMap.mem_insert, Std.compare_eq_iff_eq, hs.mem_nodes]
    by_cases hy : id = y
    · subst hy
      exact ⟨fun _ => isNode_insertNode, fun _ => .inl rfl⟩
    · rw [isNode_congr (shape?_insertNode_of_ne hy)]
      exact ⟨fun h => h.resolve_left hy, .inr⟩
  · intro r source target
    rw [links_insertNode hfree]
    exact hs.relationships
  · intro d r y
    show r ∈ (s.adjacency.insertNode id).directed d y ↔ _
    simp only [links_insertNode hfree]
    rw [Adjacency.directed_insertNode]
    split
    · next hy =>
      subst hy
      constructor
      · intro h
        cases h
      · rintro ⟨source, target, hl, hid⟩
        obtain ⟨_, hsource, htarget⟩ := hl.ne_of_free hs hfree
        cases d with
        | outgoing => exact absurd hid hsource
        | incoming => exact absurd hid htarget
    · exact hs.mem_directed
  · intro r source target hl
    obtain ⟨hsource, htarget⟩ := hs.ends ((links_insertNode hfree).mp hl)
    exact ⟨hnode hsource, hnode htarget⟩
  · intro key held hrow
    obtain ⟨hheld, hprincipal, shape, hentity⟩ := hs.grants hrow
    have hid := ne_of_shape hentity (shape?_of_entity?_eq_none hfree)
    exact ⟨hheld, hnode hprincipal, shape, (shape?_insertNode_of_ne hid).trans hentity⟩

theorem leads_insertNode (hs : s.Consistent) (hfree : s.entity? id = none) :
    s.Leads (s.insertNode id name) [.entity id] (some id) := by
  have hs' : (s.insertNode id name).Consistent := consistent_insertNode hs hfree
  refine ⟨hs', accounts_of (fun x hx => ?_) fun _ => rfl, rfl, fun x e he => ?_⟩
  · have hxid : x ≠ id := by simpa [Change.touched] using hx (.entity id) List.mem_cons_self
    refine ⟨by rw [entity?_insertNode, if_neg hxid.symm], ?_, fun q => rfl⟩
    refine incidents_eq_of_ne id hs hs' (fun y hy => ?_) fun r source target hlinks _ => ?_
    · exact (shape?_insertNode_of_ne hy.symm).symm
    · obtain ⟨hr, hsource, htarget⟩ :=
        (hlinks.elim (fun h => h) (links_insertNode hfree).mp).ne_of_free hs hfree
      exact ⟨hr.symm, hsource.symm, htarget.symm⟩
  · rw [entity?_insertNode] at he
    split at he
    · next hid => exact .inr (congrArg some hid)
    · exact .inl ⟨e, he⟩

end Node

section Relationship

variable {name : String}

/-- A snapshot with one more relationship. -/
def link (s : Snapshot) (id : EntityId) (name : String) (source target : EntityId) : Snapshot :=
  { s with
    entities := s.entities.insert id (.relationship name source target)
    adjacency := s.adjacency.insertRelationship id source target }

theorem exists_requireNode_iff : (∃ e, s.requireNode x = .ok e) ↔ s.IsNode x := by
  constructor
  · rintro ⟨e, he⟩
    obtain ⟨hentity, hnode⟩ := requireNode_eq_ok_iff.mp he
    exact isNode_of_kind hentity (Entity.isNode_iff.mp hnode)
  · rintro ⟨_, hname⟩
    obtain ⟨e, hentity, _, hkind⟩ := exists_of_shape hname
    exact ⟨e, requireNode_eq_ok_iff.mpr ⟨hentity, Entity.isNode_iff.mpr hkind⟩⟩

theorem on_insertRelationship (id : EntityId) (name : String) (hsource : s.IsNode source)
    (htarget : s.IsNode target) :
    (insertRelationship id (.relationship name source target)).on s =
      (.ok (), s.link id name source target) := by
  obtain ⟨e, he⟩ := exists_requireNode_iff.mpr hsource
  obtain ⟨e', he'⟩ := exists_requireNode_iff.mpr htarget
  show (do
    let s ← get
    let _ ← s.requireNode source
    let _ ← s.requireNode target
    set (s.link id name source target) : Action Snapshot StoreError Unit).on s = _
  simp [Action.on_bind, he, he']

theorem shape?_link (y : EntityId) : (s.link id name source target).shape? y =
    if id = y then some (name, .relationship source target) else s.shape? y :=
  shape?_insert (s := s) (e := .relationship name source target) rfl y

theorem shape?_link_of_ne (h : id ≠ x) :
    (s.link id name source target).shape? x = s.shape? x := by
  rw [shape?_link, if_neg h]

theorem links_link_self : (s.link id name source target).Links id source target :=
  ⟨name, by rw [shape?_link, if_pos rfl]⟩

theorem links_link {from' to' : EntityId} (hfree : s.entity? id = none) :
    (s.link id name source target).Links r from' to' ↔
      s.Links r from' to' ∨ r = id ∧ from' = source ∧ to' = target := by
  by_cases hr : id = r
  · subst hr
    constructor
    · intro h
      obtain ⟨hsource, htarget⟩ := links_link_self.unique h
      exact .inr ⟨rfl, hsource, htarget⟩
    · rintro (⟨_, h⟩ | ⟨_, rfl, rfl⟩)
      · rw [shape?_of_entity?_eq_none hfree] at h
        cases h
      · exact links_link_self
  · rw [links_congr (shape?_link_of_ne hr)]
    exact ⟨.inl, fun h => h.resolve_right fun h => hr h.1.symm⟩

theorem isNode_link (hfree : s.entity? id = none) :
    (s.link id name source target).IsNode x ↔ s.IsNode x := by
  by_cases hx : id = x
  · subst hx
    constructor
    · intro h
      exact absurd links_link_self (not_links_of_isNode h)
    · intro h
      exact absurd rfl (h.ne_of_free hfree)
  · exact isNode_congr (shape?_link_of_ne hx)

theorem consistent_link (hs : s.Consistent) (hfree : s.entity? id = none)
    (hsource : s.IsNode source) (htarget : s.IsNode target) :
    (s.link id name source target).Consistent := by
  constructor
  · intro y
    rw [isNode_link hfree, ← hs.mem_nodes]
    exact Adjacency.mem_nodes_insertRelationship
  · intro r from' to'
    show (s.adjacency.relationships.insert id (source, target))[r]? = _ ↔ _
    rw [ExtTreeMap.getElem?_insert, links_link hfree]
    simp only [Std.compare_eq_iff_eq]
    split
    · next hr =>
      subst hr
      rw [Option.some_inj, Prod.mk.injEq]
      constructor
      · rintro ⟨rfl, rfl⟩
        exact .inr ⟨rfl, rfl, rfl⟩
      · rintro (h | ⟨_, rfl, rfl⟩)
        · exact absurd rfl (h.ne_of_free hs hfree).1
        · exact ⟨rfl, rfl⟩
    · next hr =>
      rw [hs.relationships]
      exact ⟨.inl, fun h => h.resolve_right fun h => hr h.1.symm⟩
  · intro d r y
    show r ∈ (s.adjacency.insertRelationship id source target).directed d y ↔ _
    rw [Adjacency.mem_directed_insertRelationship, hs.mem_directed, hs.mem_nodes]
    simp only [links_link hfree]
    constructor
    · rintro (⟨from', to', hl, hy⟩ | ⟨rfl, hy, _⟩)
      · exact ⟨from', to', .inl hl, hy⟩
      · exact ⟨source, target, .inr ⟨rfl, rfl, rfl⟩, hy⟩
    · rintro ⟨from', to', hl | ⟨rfl, rfl, rfl⟩, hy⟩
      · exact .inl ⟨from', to', hl, hy⟩
      · refine .inr ⟨rfl, hy, ?_⟩
        rw [hy]
        cases d with
        | outgoing => exact hsource
        | incoming => exact htarget
  · intro r from' to' hl
    rw [isNode_link hfree, isNode_link hfree]
    rcases (links_link hfree).mp hl with hl | ⟨_, rfl, rfl⟩
    · exact hs.ends hl
    · exact ⟨hsource, htarget⟩
  · intro key held hrow
    obtain ⟨hheld, hprincipal, shape, hentity⟩ := hs.grants hrow
    have hid := ne_of_shape hentity (shape?_of_entity?_eq_none hfree)
    exact ⟨hheld, (isNode_link hfree).mpr hprincipal, shape,
      (shape?_link_of_ne hid).trans hentity⟩

theorem leads_link (hs : s.Consistent) (hfree : s.entity? id = none) (hsource : s.IsNode source)
    (htarget : s.IsNode target) :
    s.Leads (s.link id name source target) [.relationship id source target] (some id) := by
  have hs' : (s.link id name source target).Consistent := consistent_link hs hfree hsource htarget
  have hentity := entity?_insert s (s.link id name source target) rfl
  refine ⟨hs', accounts_of (fun x hx => ?_) fun _ => rfl, rfl, fun x e he => ?_⟩
  · have hx : x ≠ id ∧ x ≠ source ∧ x ≠ target := by
      simpa [Change.touched] using hx (.relationship id source target) List.mem_cons_self
    refine ⟨by rw [hentity, if_neg hx.1.symm], ?_, fun q => rfl⟩
    refine incidents_eq_of_ne id hs hs' (fun y hy => ?_) fun r from' to' hlinks hend => ?_
    · exact (shape?_link_of_ne hy.symm).symm
    · have hl : s.Links r from' to' := by
        refine hlinks.elim (fun h => h) fun hlinks => ?_
        refine ((links_link hfree).mp hlinks).resolve_right ?_
        rintro ⟨_, rfl, rfl⟩
        exact hend.elim hx.2.1 hx.2.2
      obtain ⟨hr, hfrom, hto⟩ := hl.ne_of_free hs hfree
      exact ⟨hr.symm, hfrom.symm, hto.symm⟩
  · rw [hentity] at he
    split at he
    · next hid => exact .inr (congrArg some hid)
    · exact .inl ⟨e, he⟩

end Relationship

/-! ## Altering -/

theorem Consistent.of_shape (hs : s.Consistent) (hshape : ∀ y, s'.shape? y = s.shape? y)
    (hadjacency : s'.adjacency = s.adjacency) (hgrants : s'.grants = s.grants) :
    s'.Consistent := by
  have hlinks : ∀ {r source target}, s'.Links r source target ↔ s.Links r source target :=
    links_congr (hshape _)
  have hnode : ∀ {y}, s'.IsNode y ↔ s.IsNode y := isNode_congr (hshape _)
  constructor
  · intro y
    rw [hadjacency, hnode]
    exact hs.mem_nodes
  · intro r source target
    rw [hadjacency, hlinks]
    exact hs.relationships
  · intro d r y
    simp only [hlinks]
    rw [hadjacency]
    exact hs.mem_directed
  · intro r source target h
    rw [hnode, hnode]
    exact hs.ends (hlinks.mp h)
  · intro key held h
    rw [hnode, hshape]
    rw [hgrants] at h
    exact hs.grants h

theorem on_modifyEntity {f : Entity → Entity} (h : s.entity? id = some e) :
    (modifyEntity id f).on s = (.ok (), { s with entities := s.entities.insert id (f e) }) := by
  have hrequire := requireEntity_eq_ok_iff.mpr h
  simp [modifyEntity, Action.on_bind, hrequire]

theorem leads_modifyEntity {f : Entity → Entity}
    (hf : ∀ e, (f e).typeName = e.typeName ∧ (f e).kind = e.kind) (hs : s.Consistent)
    (he : s.entity? id = some e) :
    s.Leads { s with entities := s.entities.insert id (f e) } [.entity id] none := by
  have hentity := entity?_insert s { s with entities := s.entities.insert id (f e) } rfl
  have hshape : ∀ y, shape? { s with entities := s.entities.insert id (f e) } y = s.shape? y := by
    intro y
    rw [shape?_insert (s := s) rfl, (hf e).1, (hf e).2]
    split
    · next hy => rw [← hy, shape_of_entity he]
    · rfl
  have hs' := hs.of_shape hshape rfl rfl
  refine ⟨hs', accounts_of (fun x hx => ?_) fun _ => rfl, rfl, fun x e' he' => ?_⟩
  · have hxid : x ≠ id := by simpa [Change.touched] using hx (.entity id) List.mem_cons_self
    refine ⟨by rw [hentity, if_neg hxid.symm], ?_, fun q => rfl⟩
    refine incidents_congr hs hs' fun r source target _ _ => ?_
    exact ⟨(hshape r).symm, (hshape source).symm, (hshape target).symm⟩
  · rw [hentity] at he'
    split at he'
    · next hid => exact .inl ⟨e, hid ▸ he⟩
    · exact .inl ⟨e', he'⟩

/-- Storing what a node is granted on an entity. -/
theorem leads_grants {principal entity : EntityId} {g : Grants} (hs : s.Consistent)
    (hprincipal : s.IsNode principal) (hentity : ∃ shape, s.shape? entity = some shape)
    (hrows : ∀ (key : GrantKey) (held : PermissionSet), g.rows[key]? = some held →
      key = ⟨principal, entity⟩ ∧ held ≠ ∅ ∨ s.grants.rows[key]? = some held)
    (hlookup : ∀ q x, x ≠ entity → g.lookup q x = s.grants.lookup q x) :
    s.Leads { s with grants := g } [.grant principal entity] none := by
  refine ⟨⟨hs.mem_nodes, hs.relationships, hs.mem_directed, hs.ends, ?_⟩,
    accounts_of (fun x hx => ?_) fun _ => rfl, rfl, fun x e he => .inl ⟨e, he⟩⟩
  · intro key held h
    rcases hrows key held h with ⟨rfl, hheld⟩ | h
    · exact ⟨hheld, hprincipal, hentity⟩
    · exact hs.grants h
  · have hx : x ≠ entity := by
      simpa [Change.touched] using hx (.grant principal entity) List.mem_cons_self
    exact ⟨rfl, rfl, fun q => (hlookup q x hx).symm⟩

section Grants

variable {principal entity : EntityId} (kinds : PermissionSet) (hs : s.Consistent)
  (hprincipal : s.IsNode principal) (hentity : ∃ shape, s.shape? entity = some shape)
include hs hprincipal hentity

theorem leads_grant :
    s.Leads { s with grants := (s.grants.grant principal entity kinds).2 }
      [.grant principal entity] none := by
  refine leads_grants hs hprincipal hentity (fun key held h => ?_) fun q x hx => ?_
  · rw [Grants.getElem?_grant] at h
    split at h
    · next hgranted =>
      injection h with h
      rw [← h]
      exact .inl ⟨hgranted.1, PermissionSet.union_ne_empty _ hgranted.2⟩
    · exact .inr h
  · rw [Grants.lookup_grant, if_neg fun h => hx h.2.symm]

theorem leads_revoke :
    s.Leads { s with grants := (s.grants.revoke principal entity kinds).2 }
      [.grant principal entity] none := by
  refine leads_grants hs hprincipal hentity (fun key held h => ?_) fun q x hx => ?_
  · rw [Grants.getElem?_revoke] at h
    split at h
    · next hkey =>
      obtain ⟨before, _, hheld⟩ := Option.bind_eq_some_iff.mp h
      split at hheld
      · cases hheld
      · next hne =>
        injection hheld with hheld
        exact .inl ⟨hkey, hheld ▸ hne⟩
    · exact .inr h
  · rw [Grants.lookup_revoke, if_neg fun h => hx h.2.symm]

end Grants

theorem leads_rules (rules : RuleBook) (hs : s.Consistent) :
    s.Leads { s with rules } [.rules] none := by
  refine ⟨⟨hs.mem_nodes, hs.relationships, hs.mem_directed, hs.ends, hs.grants⟩,
    accounts_of (fun x _ => ⟨rfl, rfl, fun _ => rfl⟩) fun h => ?_, rfl, fun x e he => .inl ⟨e, he⟩⟩
  have hall := h .rules List.mem_cons_self
  cases hall

end Snapshot
end PermissionGraph
