import PermissionGraph.Store.Snapshot

/-!
# PermissionGraph.Proofs.Store.Consistent

Snapshots that hold together. In a consistent snapshot (`Snapshot.Consistent`) the index of
relationships says what the table of entities says, relationships lead from node to node, and
grants are held by nodes on entities that exist.

* `exists_incidents`: the relationships of an entity can always be had.
* `incidents_congr`: they depend on the shape (`Snapshot.shape?`) of the relationships touching the
  entity and of their ends, and on nothing else.
-/

namespace PermissionGraph

open Std

/-! ## Ascending lists -/

variable {α : Type}

theorem nodup_of_ascending {f : α → EntityId} {l : List α}
    (h : l.Pairwise fun a b => compare (f a) (f b) = .lt) : l.Nodup := by
  refine h.imp ?_
  rintro a _ hab rfl
  simp at hab

/-- Lists that ascend by some identifier are equal if they have the same elements. -/
theorem eq_of_ascending {f : α → EntityId} {l l' : List α}
    (h : l.Pairwise fun a b => compare (f a) (f b) = .lt)
    (h' : l'.Pairwise fun a b => compare (f a) (f b) = .lt) (hmem : ∀ a, a ∈ l ↔ a ∈ l') :
    l = l' := by
  have hperm : l.Perm l' :=
    (List.perm_ext_iff_of_nodup (nodup_of_ascending h) (nodup_of_ascending h')).mpr hmem
  refine hperm.eq_of_pairwise (fun a b _ _ hab hba => ?_) h h'
  have hlt : compare (f a) (f a) = .lt := TransCmp.lt_trans hab hba
  simp at hlt

/-! ## Ends of relationships -/

namespace Entity

theorem isNode_iff {e : Entity} : e.isNode = true ↔ e.kind = .node := by
  rw [isNode]
  cases e.kind <;> simp

theorem endpoints?_eq_some_iff {e : Entity} {p : EntityId × EntityId} :
    e.endpoints? = some p ↔ e.kind = .relationship p.1 p.2 := by
  rw [endpoints?]
  cases e.kind <;> simp [Prod.ext_iff]

theorem endpoints?_eq_none_iff {e : Entity} : e.endpoints? = none ↔ e.kind = .node := by
  rw [endpoints?]
  cases e.kind <;> simp

/-- Whether an entity is a relationship that begins or ends at another. -/
def hasEnd (e : Entity) (id : EntityId) : Bool :=
  match e.endpoints? with
  | none => false
  | some (source, target) => id = source ∨ id = target

theorem hasEnd_iff {e : Entity} {id : EntityId} : e.hasEnd id = true ↔
    ∃ source target, e.kind = .relationship source target ∧ (id = source ∨ id = target) := by
  rw [hasEnd, endpoints?]
  cases e.kind with
  | node => simp
  | relationship source target =>
    rw [decide_eq_true_iff]
    constructor
    · intro h
      exact ⟨source, target, rfl, h⟩
    · rintro ⟨_, _, hkind, h⟩
      injection hkind with hsource htarget
      rwa [hsource, htarget]

end Entity

namespace Snapshot

variable {s s' : Snapshot} {id x r source target : EntityId}

/-- What the relationships of a graph depend on: type names, kinds and endpoints. -/
def shape? (s : Snapshot) (id : EntityId) : Option (String × EntityKind) :=
  (s.entity? id).map fun e => (e.typeName, e.kind)

def IsNode (s : Snapshot) (id : EntityId) : Prop := ∃ name, s.shape? id = some (name, .node)

/-- Whether a relationship leads from one entity to another. -/
def Links (s : Snapshot) (r source target : EntityId) : Prop :=
  ∃ name, s.shape? r = some (name, .relationship source target)

structure Consistent (s : Snapshot) : Prop where
  mem_nodes : ∀ {id : EntityId}, id ∈ s.adjacency.nodes ↔ s.IsNode id
  relationships : ∀ {r source target : EntityId},
    s.adjacency.relationships[r]? = some (source, target) ↔ s.Links r source target
  mem_directed : ∀ {d : Direction} {r id : EntityId}, r ∈ s.adjacency.directed d id ↔
    ∃ source target, s.Links r source target ∧ id = d.nearEnd source target
  ends : ∀ {r source target : EntityId}, s.Links r source target →
    s.IsNode source ∧ s.IsNode target
  grants : ∀ {key : GrantKey} {held : PermissionSet}, s.grants.rows[key]? = some held →
    held ≠ ∅ ∧ s.IsNode key.principal ∧ ∃ shape, s.shape? key.entity = some shape

/-- Every identifier in use comes before a number. -/
def Below (s : Snapshot) (n : Nat) : Prop :=
  ∀ (id : EntityId) (e : Entity), s.entity? id = some e → id.number < n

/-! ## Shapes -/

theorem exists_of_shape {name : String} {kind : EntityKind} (h : s.shape? id = some (name, kind)) :
    ∃ e, s.entity? id = some e ∧ e.typeName = name ∧ e.kind = kind := by
  obtain ⟨e, he, hshape⟩ := Option.map_eq_some_iff.mp h
  injection hshape with hname hkind
  exact ⟨e, he, hname, hkind⟩

theorem shape_of_entity {e : Entity} (h : s.entity? id = some e) :
    s.shape? id = some (e.typeName, e.kind) := by
  rw [shape?, h]
  rfl

theorem isNode_of_kind {e : Entity} (h : s.entity? id = some e) (hkind : e.kind = .node) :
    s.IsNode id :=
  ⟨e.typeName, by rw [shape_of_entity h, hkind]⟩

theorem links_of_kind {e : Entity} (h : s.entity? r = some e)
    (hkind : e.kind = .relationship source target) : s.Links r source target :=
  ⟨e.typeName, by rw [shape_of_entity h, hkind]⟩

theorem IsNode.exists_entity (h : s.IsNode id) : ∃ e, s.entity? id = some e := by
  obtain ⟨name, hname⟩ := h
  obtain ⟨e, he, _⟩ := exists_of_shape hname
  exact ⟨e, he⟩

theorem Links.exists_entity (h : s.Links r source target) : ∃ e, s.entity? r = some e := by
  obtain ⟨name, hname⟩ := h
  obtain ⟨e, he, _⟩ := exists_of_shape hname
  exact ⟨e, he⟩

theorem not_links_of_isNode (h : s.IsNode r) : ¬ s.Links r source target := by
  rintro ⟨name, hlinks⟩
  obtain ⟨name', hnode⟩ := h
  rw [hnode] at hlinks
  injection hlinks with hlinks
  injection hlinks with _ hkind
  cases hkind

theorem Links.unique {source' target' : EntityId} (h : s.Links r source target)
    (h' : s.Links r source' target') : source' = source ∧ target' = target := by
  obtain ⟨name, hname⟩ := h
  obtain ⟨name', hname'⟩ := h'
  rw [hname] at hname'
  injection hname' with hname'
  injection hname' with _ hkind
  injection hkind with hsource htarget
  exact ⟨hsource.symm, htarget.symm⟩

theorem isNode_congr (h : s.shape? id = s'.shape? id) : s.IsNode id ↔ s'.IsNode id := by
  rw [IsNode, IsNode, h]

theorem links_congr (h : s.shape? r = s'.shape? r) :
    s.Links r source target ↔ s'.Links r source target := by
  rw [Links, Links, h]

theorem typeName_congr (h : s.shape? id = s'.shape? id) : s.typeName id = s'.typeName id := by
  have hshape : ∀ s : Snapshot, s.typeName id = ((s.shape? id).map Prod.fst).getD "" := by
    intro s
    rw [typeName, shape?]
    cases s.entity? id <;> rfl
  rw [hshape, hshape, h]

theorem consistent_empty (rules : RuleBook) : ({ rules } : Snapshot).Consistent := by
  have hshape : ∀ id, ({ rules } : Snapshot).shape? id = none := by
    intro id
    simp [shape?, entity?]
  have hlinks : ∀ {r source target}, ¬ ({ rules } : Snapshot).Links r source target := by
    rintro r source target ⟨name, h⟩
    rw [hshape] at h
    cases h
  have hnode : ∀ {id}, ¬ ({ rules } : Snapshot).IsNode id := by
    rintro id ⟨name, h⟩
    rw [hshape] at h
    cases h
  have hadjacency : (∅ : Adjacency).nodes = ∅ ∧ (∅ : Adjacency).relationships = ∅ := ⟨rfl, rfl⟩
  have hrows : (∅ : Grants).rows = ∅ := rfl
  exact
    { mem_nodes := by simp [hnode, hadjacency.1]
      relationships := by simp [hlinks, hadjacency.2]
      mem_directed := by simp [hlinks, Adjacency.directed_empty]
      ends := fun h => absurd h hlinks
      grants := by simp [hrows] }

/-! ## Relationships -/

theorem incidentsOf_of_links (h : s.Links r source target) (id : EntityId) :
    s.incidentsOf id r = .ok (Incident.ofRelationship id r
      ⟨s.typeName r, s.typeName source, s.typeName target⟩ source target) := by
  obtain ⟨name, hname⟩ := h
  obtain ⟨e, he, htype, hkind⟩ := exists_of_shape hname
  have hends : e.endpoints? = some (source, target) := Entity.endpoints?_eq_some_iff.mpr hkind
  have htypeName : s.typeName r = e.typeName := by rw [typeName, he]
  rw [incidentsOf, he]
  simp only [hends]
  rw [htypeName]

theorem Consistent.mem_touching (h : s.Consistent) : r ∈ s.adjacency.touching id ↔
    ∃ source target, s.Links r source target ∧ (id = source ∨ id = target) := by
  rw [Adjacency.mem_touching_iff, h.mem_directed, h.mem_directed]
  constructor
  · rintro (⟨source, target, hlinks, hid⟩ | ⟨source, target, hlinks, hid⟩)
    · exact ⟨source, target, hlinks, .inl hid⟩
    · exact ⟨source, target, hlinks, .inr hid⟩
  · rintro ⟨source, target, hlinks, hid | hid⟩
    · exact .inl ⟨source, target, hlinks, hid⟩
    · exact .inr ⟨source, target, hlinks, hid⟩

theorem exists_incidents (h : s.Consistent) (id : EntityId) :
    ∃ l, s.incidents id = .ok l := by
  have hmapM : ∀ l : List EntityId, (∀ r ∈ l, r ∈ s.adjacency.touching id) →
      ∃ found, l.mapM (s.incidentsOf id) = .ok found := by
    intro l hl
    induction l with
    | nil => exact ⟨[], rfl⟩
    | cons r l ih =>
      obtain ⟨source, target, hlinks, _⟩ := h.mem_touching.mp (hl r List.mem_cons_self)
      obtain ⟨found, hfound⟩ := ih fun y hy => hl y (List.mem_cons_of_mem r hy)
      rw [List.mapM_cons, incidentsOf_of_links hlinks, hfound]
      exact ⟨_, rfl⟩
  obtain ⟨found, hfound⟩ := hmapM (s.adjacency.touching id) fun _ hr => hr
  rw [incidents, hfound]
  exact ⟨found.flatten, rfl⟩

/-- Snapshots that agree on the relationships touching an entity and on their ends agree on what
touches the entity. -/
theorem incidents_congr (h : s.Consistent) (h' : s'.Consistent)
    (hshape : ∀ r source target, s.Links r source target ∨ s'.Links r source target →
      x = source ∨ x = target →
      s.shape? r = s'.shape? r ∧ s.shape? source = s'.shape? source
        ∧ s.shape? target = s'.shape? target) :
    s.incidents x = s'.incidents x := by
  have htouching : s.adjacency.touching x = s'.adjacency.touching x := by
    refine eq_of_ascending (f := fun r => r) (s.adjacency.pairwise_touching x)
      (s'.adjacency.pairwise_touching x) fun r => ?_
    rw [h.mem_touching, h'.mem_touching]
    constructor
    · rintro ⟨source, target, hlinks, hx⟩
      have hr := (hshape r source target (.inl hlinks) hx).1
      exact ⟨source, target, (links_congr hr).mp hlinks, hx⟩
    · rintro ⟨source, target, hlinks, hx⟩
      have hr := (hshape r source target (.inr hlinks) hx).1
      exact ⟨source, target, (links_congr hr).mpr hlinks, hx⟩
  have hmapM : ∀ l : List EntityId, (∀ r ∈ l, r ∈ s.adjacency.touching x) →
      l.mapM (s.incidentsOf x) = l.mapM (s'.incidentsOf x) := by
    intro l hl
    induction l with
    | nil => rfl
    | cons r l ih =>
      obtain ⟨source, target, hlinks, hx⟩ := h.mem_touching.mp (hl r List.mem_cons_self)
      obtain ⟨hr, hsource, htarget⟩ := hshape r source target (.inl hlinks) hx
      rw [List.mapM_cons, List.mapM_cons, ih fun y hy => hl y (List.mem_cons_of_mem r hy),
        incidentsOf_of_links hlinks, incidentsOf_of_links ((links_congr hr).mp hlinks),
        typeName_congr hr, typeName_congr hsource, typeName_congr htarget]
  rw [incidents, incidents, ← htouching, hmapM _ fun _ hr => hr]

/-- Snapshots that differ in one entity agree on the relationships of every entity that has none
with it. -/
theorem incidents_eq_of_ne (id : EntityId) (h : s.Consistent) (h' : s'.Consistent)
    (hshape : ∀ y, y ≠ id → s.shape? y = s'.shape? y)
    (hfree : ∀ r source target, s.Links r source target ∨ s'.Links r source target →
      x = source ∨ x = target → r ≠ id ∧ source ≠ id ∧ target ≠ id) :
    s.incidents x = s'.incidents x := by
  refine incidents_congr h h' fun r source target hlinks hx => ?_
  obtain ⟨hr, hsource, htarget⟩ := hfree r source target hlinks hx
  exact ⟨hshape r hr, hshape source hsource, hshape target htarget⟩

end Snapshot
end PermissionGraph
