import PermissionGraph.Proofs.Store.Coherence

/-!
# PermissionGraph.Proofs.Store.Integrity

Referential integrity. A snapshot is integral (`Snapshot.Integral`) when its table of entities, its
index and its grants speak of the same entities: what is in the table is a node or a relationship
of the index and never both, relationships lead from node to node, and grants are held by nodes on
entities that exist.

* `Consistent.integral`: every consistent snapshot is integral.
* `integral_run`: so is every snapshot that a session comes to, committed or not.
-/

namespace PermissionGraph

open Std

namespace Snapshot

variable {s : Snapshot} {id source target : EntityId}

structure Integral (s : Snapshot) : Prop where
  /-- The table lists what the two parts of the index list together. -/
  listed : ∀ id, (∃ e, s.entity? id = some e) ↔
    id ∈ s.adjacency.nodes ∨ id ∈ s.adjacency.relationships
  disjoint : ∀ id, id ∈ s.adjacency.nodes → id ∉ s.adjacency.relationships
  nodes : ∀ id, id ∈ s.adjacency.nodes ↔ ∃ e, s.entity? id = some e ∧ e.kind = .node
  relationships : ∀ id source target, s.adjacency.relationships[id]? = some (source, target) ↔
    ∃ e, s.entity? id = some e ∧ e.kind = .relationship source target
  /-- A relationship is found at its endpoints and nowhere else. -/
  touching : ∀ id node, id ∈ s.adjacency.touching node ↔
    ∃ e source target, s.entity? id = some e ∧ e.kind = .relationship source target ∧
      (node = source ∨ node = target)
  endpoints : ∀ id e source target, s.entity? id = some e → e.kind = .relationship source target →
    source ∈ s.adjacency.nodes ∧ target ∈ s.adjacency.nodes
  grants : ∀ (key : GrantKey) held, s.grants.rows[key]? = some held →
    held ≠ ∅ ∧ key.principal ∈ s.adjacency.nodes ∧ ∃ e, s.entity? key.entity = some e

theorem isNode_iff : s.IsNode id ↔ ∃ e, s.entity? id = some e ∧ e.kind = .node := by
  constructor
  · rintro ⟨name, hname⟩
    obtain ⟨e, he, _, hkind⟩ := exists_of_shape hname
    exact ⟨e, he, hkind⟩
  · rintro ⟨e, he, hkind⟩
    exact isNode_of_kind he hkind

theorem links_iff : s.Links id source target ↔
    ∃ e, s.entity? id = some e ∧ e.kind = .relationship source target := by
  constructor
  · rintro ⟨name, hname⟩
    obtain ⟨e, he, _, hkind⟩ := exists_of_shape hname
    exact ⟨e, he, hkind⟩
  · rintro ⟨e, he, hkind⟩
    exact links_of_kind he hkind

/-- What exists is a node or leads from somewhere to somewhere. -/
theorem exists_entity_iff : (∃ e, s.entity? id = some e) ↔
    s.IsNode id ∨ ∃ source target, s.Links id source target := by
  constructor
  · rintro ⟨e, he⟩
    cases hkind : e.kind with
    | node => exact .inl (isNode_of_kind he hkind)
    | relationship source target => exact .inr ⟨source, target, links_of_kind he hkind⟩
  · rintro (h | ⟨source, target, h⟩)
    · exact h.exists_entity
    · exact h.exists_entity

theorem Consistent.mem_relationships (h : s.Consistent) :
    id ∈ s.adjacency.relationships ↔ ∃ source target, s.Links id source target := by
  rw [ExtTreeMap.mem_iff_isSome_getElem?, Option.isSome_iff_exists]
  constructor
  · rintro ⟨⟨source, target⟩, hrow⟩
    exact ⟨source, target, h.relationships.mp hrow⟩
  · rintro ⟨source, target, hlinks⟩
    exact ⟨(source, target), h.relationships.mpr hlinks⟩

theorem Consistent.integral (h : s.Consistent) : s.Integral where
  listed id := by
    rw [exists_entity_iff, h.mem_nodes, h.mem_relationships]
  disjoint id hnode hrelationship := by
    obtain ⟨source, target, hlinks⟩ := h.mem_relationships.mp hrelationship
    exact not_links_of_isNode (h.mem_nodes.mp hnode) hlinks
  nodes id := h.mem_nodes.trans isNode_iff
  relationships id source target := h.relationships.trans links_iff
  touching id node := by
    rw [h.mem_touching]
    constructor
    · rintro ⟨source, target, hlinks, hnode⟩
      obtain ⟨e, he, hkind⟩ := links_iff.mp hlinks
      exact ⟨e, source, target, he, hkind, hnode⟩
    · rintro ⟨e, source, target, he, hkind, hnode⟩
      exact ⟨source, target, links_of_kind he hkind, hnode⟩
  endpoints id e source target he hkind := by
    rw [h.mem_nodes, h.mem_nodes]
    exact h.ends (links_of_kind he hkind)
  grants key held hrow := by
    obtain ⟨hne, hprincipal, ⟨name, kind⟩, hshape⟩ := h.grants hrow
    obtain ⟨e, he, _⟩ := exists_of_shape hshape
    exact ⟨hne, h.mem_nodes.mpr hprincipal, e, he⟩

end Snapshot

namespace Session

/-- Whatever is requested of a session, the committed snapshot is integral, and so is every open
transaction's, at its beginning and as it stands. -/
theorem integral_run (settings : Settings) (requests : List Request) :
    ((new settings).run requests).db.committed.Integral ∧
      ∀ name t, ((new settings).run requests).transaction? name = some t →
        t.base.Integral ∧ t.current.Integral := by
  have hsound := sound_run (sound_new settings) requests
  refine ⟨hsound.db.committed.integral, fun name t ht => ?_⟩
  have ht := (hsound.fits ht).1.sound
  exact ⟨ht.base.integral, ht.current.integral⟩

/-- A page that is linked with itself and twice with another goes, and with it grants on it, held by
it, and on its relationships. -/
def upheaval : List Request :=
  [.begin "setup", .write "setup" (.createNode "User"), .write "setup" (.createNode "Page"),
    .write "setup" (.createNode "Page"), .write "setup" (.createRelationship "Link" ⟨2⟩ ⟨2⟩),
    .write "setup" (.createRelationship "Link" ⟨2⟩ ⟨3⟩),
    .write "setup" (.createRelationship "Link" ⟨3⟩ ⟨2⟩), .write "setup" (.grant ⟨1⟩ ⟨2⟩ .full),
    .write "setup" (.grant ⟨1⟩ ⟨5⟩ .full), .write "setup" (.grant ⟨2⟩ ⟨3⟩ .full),
    .write "setup" (.grant ⟨1⟩ ⟨3⟩ .full), .commit "setup", .begin "writer",
    .write "writer" (.deleteEntity ⟨2⟩), .write "writer" (.addMember ⟨3⟩ ⟨1⟩)]

theorem integral_run_upheaval :
    ((new {}).run upheaval).db.committed.Integral ∧
      ((new {}).run upheaval).db.committed.relationshipCount = 3 ∧
      ∃ t, ((new {}).run upheaval).transaction? "writer" = some t ∧ t.current.Integral ∧
        t.current.relationshipCount = 1 ∧ t.current.grants.size = 1 := by
  obtain ⟨hcommitted, hopen⟩ := integral_run {} upheaval
  obtain ⟨t, ht, hcounts⟩ := (Option.any_eq_true _ _).mp
    (show (((new {}).run upheaval).transaction? "writer").any (fun t =>
      t.current.relationshipCount = 1 ∧ t.current.grants.size = 1) = true by decide +kernel)
  exact ⟨hcommitted, by decide +kernel, t, ht, (hopen "writer" t ht).2, of_decide_eq_true hcounts⟩

end Session
end PermissionGraph
