import PermissionGraph.Proofs.Access.Available
import PermissionGraph.Proofs.Store.Integrity

/-!
# PermissionGraph.Proofs.Store.Scan

The index of relationships finds what a scan of the table of entities finds. In a consistent
snapshot, looking up what touches an entity gives the list that going through all rows in ascending
order gives, row by row (`incidents_eq_scan`).

* `filter_hasEnd_eq`: the rows of the table that touch an entity are those that the index lists.
* `filter_scan`: of one relationship, a scan finds what its own row causes.
* `incidents_run`: so it is in every snapshot that a session comes to, committed or not.
-/

namespace PermissionGraph

open Std

variable {α β : Type}

theorem flatMap_filter_of_eq_nil {p : α → Bool} {f : α → List β} {l : List α}
    (h : ∀ a ∈ l, p a = false → f a = []) : (l.filter p).flatMap f = l.flatMap f := by
  induction l with
  | nil => rfl
  | cons a l ih =>
    have ih := ih fun b hb => h b (List.mem_cons_of_mem a hb)
    cases hp : p a with
    | true => simp [hp, ih]
    | false => simp [hp, ih, h a List.mem_cons_self hp]

namespace Tables

variable {entities : EntityMap Entity} {id r : EntityId} {e : Entity}

theorem rowIncidents_of_hasEnd_eq_false {row : EntityId × Entity} (h : row.2.hasEnd id = false) :
    rowIncidents entities id row = [] := by
  rw [Entity.hasEnd] at h
  rw [rowIncidents]
  cases hends : row.2.endpoints? with
  | none => rfl
  | some ends =>
    simp only [hends, decide_eq_false_iff_not, not_or] at h
    have hsource : ends.1 ≠ id := fun hid => h.1 hid.symm
    have htarget : ends.2 ≠ id := fun hid => h.2 hid.symm
    simp [Incident.ofRelationship, hsource, htarget]

theorem relationship_of_mem_rowIncidents {row : EntityId × Entity} {i : Incident}
    (h : i ∈ rowIncidents entities id row) : i.relationship = row.1 := by
  rw [rowIncidents] at h
  cases hends : row.2.endpoints? with
  | none => simp [hends] at h
  | some ends =>
    simp only [hends] at h
    rcases Incident.mem_ofRelationship.mp h with ⟨_, rfl⟩ | ⟨_, rfl⟩ <;> rfl

theorem pairwise_scan (entities : EntityMap Entity) (id : EntityId) :
    (scan entities id).Pairwise fun i j => i.relationship.number ≤ j.relationship.number := by
  rw [scan, List.pairwise_flatMap]
  constructor
  · intro row _
    refine List.pairwise_of_forall_mem_list fun i hi j hj => ?_
    rw [relationship_of_mem_rowIncidents hi, relationship_of_mem_rowIncidents hj]
  · refine ExtTreeMap.ordered_keys_toList.imp fun {row row'} hlt i hi j hj => ?_
    rw [relationship_of_mem_rowIncidents hi, relationship_of_mem_rowIncidents hj]
    exact Nat.le_of_lt (Nat.compare_eq_lt.mp hlt)

theorem filter_scan (h : entities[r]? = some e) :
    (scan entities id).filter (·.relationship = r) = rowIncidents entities id (r, e) := by
  have hrow : entities.toList.filter (fun row => row.1 = r) = [(r, e)] := by
    refine eq_of_ascending (ExtTreeMap.ordered_keys_toList.filter _) (List.pairwise_singleton _ _)
      fun row => ?_
    rw [List.mem_filter, List.mem_singleton]
    constructor
    · intro hrow
      have hget := ExtTreeMap.mem_toList_iff_getElem?_eq_some.mp hrow.1
      have hr : row.1 = r := by simpa using hrow.2
      rw [hr, h, Option.some_inj] at hget
      rw [hget, ← hr]
    · rintro rfl
      exact ⟨ExtTreeMap.mem_toList_iff_getElem?_eq_some.mpr h, by simp⟩
  have hfilter : ∀ row : EntityId × Entity,
      (rowIncidents entities id row).filter (·.relationship = r) =
        if row.1 = r then rowIncidents entities id row else [] := by
    intro row
    split
    · next hr =>
      rw [List.filter_eq_self]
      intro i hi
      simp [relationship_of_mem_rowIncidents hi, hr]
    · next hr =>
      rw [List.filter_eq_nil_iff]
      intro i hi
      simp [relationship_of_mem_rowIncidents hi, hr]
  have hdrop := flatMap_filter_of_eq_nil (l := entities.toList) (p := fun row => row.1 = r)
    (f := fun row => if row.1 = r then rowIncidents entities id row else [])
    fun row _ hr => by simpa using fun hr' => absurd hr' (by simpa using hr)
  rw [scan, List.filter_flatMap]
  simp only [hfilter]
  rw [← hdrop, hrow]
  simp

end Tables

namespace Snapshot

variable {s : Snapshot} {id r source target : EntityId} {e : Entity}

/-! ## The index and the table -/

theorem Consistent.mem_touching_iff (h : s.Consistent) :
    r ∈ s.adjacency.touching id ↔ ∃ e, s.entity? r = some e ∧ e.hasEnd id = true := by
  rw [h.mem_touching]
  constructor
  · rintro ⟨source, target, hlinks, hid⟩
    obtain ⟨e, he, hkind⟩ := links_iff.mp hlinks
    exact ⟨e, he, Entity.hasEnd_iff.mpr ⟨source, target, hkind, hid⟩⟩
  · rintro ⟨e, he, hend⟩
    obtain ⟨source, target, hkind, hid⟩ := Entity.hasEnd_iff.mp hend
    exact ⟨source, target, links_of_kind he hkind, hid⟩

/-- The rows of the table that touch an entity are those that the index lists, in one order. -/
theorem Consistent.filter_hasEnd_eq (h : s.Consistent) (id : EntityId) :
    (s.entities.toList.filter fun row => row.2.hasEnd id).map Prod.fst =
      s.adjacency.touching id := by
  refine eq_of_ascending (f := fun r => r) ?_ (s.adjacency.pairwise_touching id) fun r => ?_
  · rw [List.pairwise_map]
    exact ExtTreeMap.ordered_keys_toList.filter _
  · rw [h.mem_touching_iff, List.mem_map]
    constructor
    · rintro ⟨⟨r, e⟩, hrow, rfl⟩
      obtain ⟨hrow, hend⟩ := List.mem_filter.mp hrow
      exact ⟨e, ExtTreeMap.mem_toList_iff_getElem?_eq_some.mp hrow, hend⟩
    · rintro ⟨e, he, hend⟩
      exact ⟨(r, e), List.mem_filter.mpr ⟨ExtTreeMap.mem_toList_iff_getElem?_eq_some.mpr he, hend⟩,
        rfl⟩

theorem incidentsOf_eq (he : s.entity? r = some e) (id : EntityId) :
    s.incidentsOf id r = .ok (Tables.rowIncidents s.entities id (r, e)) := by
  rw [incidentsOf, he, Tables.rowIncidents]
  cases hends : e.endpoints? with
  | none => simp [hends]
  | some ends =>
    simp only [hends]
    rfl

theorem mapM_incidentsOf {rows : List (EntityId × Entity)}
    (h : ∀ row ∈ rows, row ∈ s.entities.toList) (id : EntityId) :
    (rows.map Prod.fst).mapM (s.incidentsOf id) =
      .ok (rows.map (Tables.rowIncidents s.entities id)) := by
  induction rows with
  | nil => rfl
  | cons row rows ih =>
    have he : s.entity? row.1 = some row.2 :=
      ExtTreeMap.mem_toList_iff_getElem?_eq_some.mp (h row List.mem_cons_self)
    have ih := ih fun x hx => h x (List.mem_cons_of_mem row hx)
    rw [List.map_cons, List.map_cons, List.mapM_cons, incidentsOf_eq he, ih]
    rfl

/-- In a consistent snapshot the index finds what a scan of the table finds. -/
theorem Consistent.incidents_eq_scan (h : s.Consistent) (id : EntityId) :
    s.incidents id = .ok (Tables.scan s.entities id) := by
  have hrows := mapM_incidentsOf (s := s)
    (fun row hrow => (List.mem_filter.mp hrow).1 :
      ∀ row ∈ s.entities.toList.filter (fun row => row.2.hasEnd id), row ∈ s.entities.toList) id
  rw [h.filter_hasEnd_eq] at hrows
  rw [incidents, hrows]
  show Except.ok _ = _
  rw [← List.flatMap_def, Tables.scan, flatMap_filter_of_eq_nil]
  intro row _ hend
  exact Tables.rowIncidents_of_hasEnd_eq_false hend

/-- Looking up what touches an entity never fails, and finds what a scan of the table finds. -/
structure Scanned (s : Snapshot) : Prop where
  found : ∀ id, s.incidents id = .ok (Tables.scan s.entities id)
  ascending : ∀ id, (Tables.scan s.entities id).Pairwise fun i j =>
    i.relationship.number ≤ j.relationship.number
  /-- A relationship is listed as outgoing where it begins and then as incoming where it ends, with
  its name and the types of the two nodes. -/
  listed : ∀ id r e source target, s.entity? r = some e → e.kind = .relationship source target →
    ∃ e' e'', s.entity? source = some e' ∧ e'.kind = .node ∧
      s.entity? target = some e'' ∧ e''.kind = .node ∧
      (Tables.scan s.entities id).filter (·.relationship = r) =
        (if source = id then
          [⟨r, ⟨e.typeName, e'.typeName, e''.typeName⟩, .outgoing, target⟩] else []) ++
        (if target = id then
          [⟨r, ⟨e.typeName, e'.typeName, e''.typeName⟩, .incoming, source⟩] else [])
  /-- Nothing is listed but relationships. -/
  only : ∀ id, ∀ i ∈ Tables.scan s.entities id, ∃ e source target,
    s.entity? i.relationship = some e ∧ e.kind = .relationship source target
  /-- Nothing touches what is not a node. -/
  nothing : ∀ id, (∀ e, s.entity? id = some e → e.kind ≠ .node) → s.incidents id = .ok []
  /-- A relationship from a node to itself is listed twice. -/
  loop : ∀ id r e, s.entity? r = some e → e.kind = .relationship id id →
    ((Tables.scan s.entities id).filter (·.relationship = r)).length = 2

theorem Consistent.filter_scan_eq (h : s.Consistent) (he : s.entity? r = some e)
    (hkind : e.kind = .relationship source target) (id : EntityId) :
    ∃ e' e'', s.entity? source = some e' ∧ e'.kind = .node ∧
      s.entity? target = some e'' ∧ e''.kind = .node ∧
      (Tables.scan s.entities id).filter (·.relationship = r) =
        Incident.ofRelationship id r ⟨e.typeName, e'.typeName, e''.typeName⟩ source target := by
  obtain ⟨hsource, htarget⟩ := h.ends (links_of_kind he hkind)
  obtain ⟨e', he', hnode'⟩ := isNode_iff.mp hsource
  obtain ⟨e'', he'', hnode''⟩ := isNode_iff.mp htarget
  refine ⟨e', e'', he', hnode', he'', hnode'', ?_⟩
  have hget : ∀ {x : EntityId} {e : Entity}, s.entity? x = some e → s.entities[x]? = some e :=
    fun hx => hx
  have hends : e.endpoints? = some (source, target) := Entity.endpoints?_eq_some_iff.mpr hkind
  rw [Tables.filter_scan (hget he), Tables.rowIncidents, hends]
  simp only [Tables.typeName, hget he', hget he'']

theorem Consistent.scan_eq_nil (h : s.Consistent) (hid : ¬ s.IsNode id) :
    Tables.scan s.entities id = [] := by
  rw [List.eq_nil_iff_forall_not_mem]
  intro i hi
  obtain ⟨r, e, source, target, he, hends, hi⟩ := Tables.mem_scan_iff.mp hi
  have hlinks := h.ends (links_of_kind he (Entity.endpoints?_eq_some_iff.mp hends))
  rcases Incident.mem_ofRelationship.mp hi with ⟨rfl, _⟩ | ⟨rfl, _⟩
  · exact hid hlinks.1
  · exact hid hlinks.2

theorem Consistent.scanned (h : s.Consistent) : s.Scanned where
  found := h.incidents_eq_scan
  ascending := Tables.pairwise_scan s.entities
  listed id r e source target he hkind := h.filter_scan_eq he hkind id
  only id i hi := by
    obtain ⟨r, e, source, target, he, hends, hi⟩ := Tables.mem_scan_iff.mp hi
    have hkind := Entity.endpoints?_eq_some_iff.mp hends
    rcases Incident.mem_ofRelationship.mp hi with ⟨_, rfl⟩ | ⟨_, rfl⟩ <;>
      exact ⟨e, source, target, he, hkind⟩
  nothing id hid := by
    rw [h.incidents_eq_scan, h.scan_eq_nil]
    intro hnode
    obtain ⟨e, he, hkind⟩ := isNode_iff.mp hnode
    exact hid e he hkind
  loop id r e he hkind := by
    obtain ⟨e', e'', _, _, _, _, hlisted⟩ := h.filter_scan_eq he hkind id
    rw [hlisted]
    simp [Incident.ofRelationship]

end Snapshot

namespace Session

/-- Whatever is requested of a session, in the committed snapshot and in those of every open
transaction the index of relationships says of every entity what the table says. -/
theorem incidents_run (settings : Settings) (requests : List Request) :
    ((new settings).run requests).db.committed.Scanned ∧
      ∀ name t, ((new settings).run requests).transaction? name = some t →
        t.base.Scanned ∧ t.current.Scanned := by
  have hsound := sound_run (sound_new settings) requests
  refine ⟨hsound.db.committed.scanned, fun name t ht => ?_⟩
  have ht := (hsound.fits ht).1.sound
  exact ⟨ht.base.scanned, ht.current.scanned⟩

/-- A page with a link to itself and two to another page, and then a third page that comes and goes
with its links. -/
def mesh : List Request :=
  [.begin "setup", .write "setup" (.createNode "Page"), .write "setup" (.createNode "Folder"),
    .write "setup" (.createNode "Page"), .write "setup" (.createRelationship "Link" ⟨3⟩ ⟨1⟩),
    .write "setup" (.createRelationship "Link" ⟨1⟩ ⟨1⟩),
    .write "setup" (.createRelationship "Link" ⟨1⟩ ⟨2⟩),
    .write "setup" (.createRelationship "Note" ⟨1⟩ ⟨2⟩), .commit "setup", .begin "writer",
    .write "writer" (.deleteEntity ⟨3⟩), .write "writer" (.deleteEntity ⟨6⟩)]

theorem incidents_run_mesh :
    ((new {}).run mesh).db.committed.Scanned ∧
      ∃ t, ((new {}).run mesh).transaction? "writer" = some t ∧ t.base.Scanned ∧
        t.current.Scanned ∧ t.current.incidents ⟨1⟩ = .ok
          [⟨⟨5⟩, ⟨"Link", "Page", "Page"⟩, .outgoing, ⟨1⟩⟩,
            ⟨⟨5⟩, ⟨"Link", "Page", "Page"⟩, .incoming, ⟨1⟩⟩,
            ⟨⟨7⟩, ⟨"Note", "Page", "Folder"⟩, .outgoing, ⟨2⟩⟩] := by
  obtain ⟨hcommitted, hopen⟩ := incidents_run {} mesh
  obtain ⟨t, ht, hfound⟩ := (Option.any_eq_true _ _).mp
    (show (((new {}).run mesh).transaction? "writer").any (fun t =>
      t.current.incidents ⟨1⟩ = .ok
        [⟨⟨5⟩, ⟨"Link", "Page", "Page"⟩, .outgoing, ⟨1⟩⟩,
          ⟨⟨5⟩, ⟨"Link", "Page", "Page"⟩, .incoming, ⟨1⟩⟩,
          ⟨⟨7⟩, ⟨"Note", "Page", "Folder"⟩, .outgoing, ⟨2⟩⟩]) = true by decide +kernel)
  obtain ⟨hbase, hcurrent⟩ := hopen "writer" t ht
  exact ⟨hcommitted, t, ht, hbase, hcurrent, of_decide_eq_true hfound⟩

end Session
end PermissionGraph
