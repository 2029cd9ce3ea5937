import Mathlib.Data.List.Nodup
import PermissionGraph.Proofs.Store.Scan

/-!
# PermissionGraph.Proofs.Store.Deletion

What a deletion takes away. With an entity go the relationships that begin or end at it
(`Snapshot.goesWith`), and with each of these the grants held by it or on it. Nothing else is lost,
and the changes tell of each loss once (`Snapshot.Drops`).

* `Drops.trans`: one removal after another.
* `drops_removeRelationship`, `Removes.drops`, `drops_removeNode`: removing a relationship, several
  of them, and a node that has none.
* `exists_removeEntity`: an entity that exists can be removed, and nothing but what goes with it
  goes.
* `deletion_run`: so it is for every transaction of a session.
-/

namespace PermissionGraph

open Std

namespace Snapshot

variable {s s' s'' : Snapshot} {id x r source target : EntityId} {changes more : List Change}
  {gone lost : EntityId → Bool} {c : Change}

/-- Whether one entity goes when another is deleted: it is that entity, or a relationship that
begins or ends there. -/
def goesWith (s : Snapshot) (id x : EntityId) : Bool := x = id || (s.entity? x).any (·.hasEnd id)

/-- The changes that tell of the loss of some entities: of each that there is, of the ends of each
relationship, and of each grant that one of them holds or that is on one. -/
def Tells (s : Snapshot) (gone : EntityId → Bool) : Change → Prop
  | .entity x => gone x = true ∧ ∃ e, s.entity? x = some e
  | .relationship r source target =>
    gone r = true ∧ ∃ e, s.entity? r = some e ∧ e.kind = .relationship source target
  | .grant principal entity =>
    (gone principal = true ∨ gone entity = true) ∧
      ∃ held, s.grants.rows[(⟨principal, entity⟩ : GrantKey)]? = some held
  | .rules => False

/-- One snapshot is another without some entities and without the grants that they hold or that are
on them, and changes tell of each of these once and of nothing else. -/
structure Drops (s s' : Snapshot) (gone : EntityId → Bool) (changes : List Change) : Prop where
  entities : s'.entities = s.entities.filter fun x _ => !gone x
  grants : s'.grants.rows =
    s.grants.rows.filter fun key _ => !(gone key.principal || gone key.entity)
  rules : s'.rules = s.rules
  version : s'.version = s.version
  nodup : changes.Nodup
  mem_changes : ∀ c, c ∈ changes ↔ s.Tells gone c

theorem Drops.entity? (h : s.Drops s' gone changes) (x : EntityId) :
    s'.entity? x = if gone x then none else s.entity? x := by
  rw [Snapshot.entity?, h.entities, ExtTreeMap.getElem?_filter']
  cases gone x with
  | false => simp [Snapshot.entity?, filter_true]
  | true => simp

theorem Drops.getElem?_rows (h : s.Drops s' gone changes) (key : GrantKey) :
    s'.grants.rows[key]? =
      if gone key.principal || gone key.entity then none else s.grants.rows[key]? := by
  rw [h.grants, ExtTreeMap.getElem?_filter']
  cases gone key.principal || gone key.entity with
  | false => simp [filter_true]
  | true => simp

/-- What a second removal tells of, the first has left. -/
theorem Drops.tells_iff (h : s.Drops s' gone changes) :
    s'.Tells lost c ↔ s.Tells lost c ∧ ¬ s.Tells gone c := by
  cases c with
  | entity x =>
    simp only [Tells, h.entity?]
    cases gone x <;> simp
  | relationship r source target =>
    simp only [Tells, h.entity?]
    cases gone r <;> simp
  | grant principal entity =>
    simp only [Tells, h.getElem?_rows]
    cases gone principal <;> cases gone entity <;> simp
  | rules => simp [Tells]

theorem tells_or : s.Tells (fun x => gone x || lost x) c ↔ s.Tells gone c ∨ s.Tells lost c := by
  cases c with
  | entity x => simp [Tells, or_and_right]
  | relationship r source target => simp [Tells, or_and_right]
  | grant principal entity =>
    simp only [Tells, Bool.or_eq_true, ← or_and_right]
    rw [or_or_or_comm]
  | rules => simp [Tells]

theorem Drops.refl (s : Snapshot) : s.Drops s (fun _ => false) [] where
  entities := by
    apply ExtTreeMap.ext_getElem?
    intro x
    simp [filter_true]
  grants := by
    apply ExtTreeMap.ext_getElem?
    intro key
    simp [filter_true]
  rules := rfl
  version := rfl
  nodup := List.nodup_nil
  mem_changes c := by cases c <;> simp [Tells]

theorem Drops.trans (h : s.Drops s' gone changes) (h' : s'.Drops s'' lost more) :
    s.Drops s'' (fun x => gone x || lost x) (changes ++ more) where
  entities := by
    apply ExtTreeMap.ext_getElem?
    intro x
    have hx := h'.entity? x
    rw [h.entity? x] at hx
    rw [ExtTreeMap.getElem?_filter']
    cases hgone : gone x <;> cases hlost : lost x <;> simp_all [Snapshot.entity?, filter_true]
  grants := by
    apply ExtTreeMap.ext_getElem?
    intro key
    rw [h'.getElem?_rows, h.getElem?_rows, ExtTreeMap.getElem?_filter']
    cases gone key.principal <;> cases gone key.entity <;> cases lost key.principal <;>
      cases lost key.entity <;> simp [filter_true]
  rules := h'.rules.trans h.rules
  version := h'.version.trans h.version
  nodup := by
    refine List.nodup_append.mpr ⟨h.nodup, h'.nodup, ?_⟩
    rintro c hc _ hc' rfl
    exact (h.tells_iff.mp ((h'.mem_changes c).mp hc')).2 ((h.mem_changes c).mp hc)
  mem_changes c := by
    rw [List.mem_append, h.mem_changes, h'.mem_changes, h.tells_iff, tells_or]
    tauto

/-! ## One entity -/

/-- The changes of an entity's record and grants: all that there is to tell but a relationship's
ends. -/
theorem mem_dropRecord {e : Entity} (he : s.entity? id = some e) : c ∈ (s.dropRecord id).1 ↔
    s.Tells (fun x => x = id) c ∧ ∀ r source target, c ≠ .relationship r source target := by
  rw [dropRecord, List.mem_append, List.mem_map, List.mem_singleton]
  cases c with
  | entity x =>
    simp only [reduceCtorEq, and_false, exists_false, Change.entity.injEq, false_or, Tells,
      decide_eq_true_eq, ne_eq, not_false_eq_true, implies_true, and_true]
    constructor
    · rintro rfl
      exact ⟨rfl, e, he⟩
    · exact And.left
  | relationship r source target => simp
  | grant principal entity =>
    simp only [reduceCtorEq, or_false, Tells, decide_eq_true_eq, ne_eq, not_false_eq_true,
      implies_true, and_true]
    constructor
    · rintro ⟨key, hkey, heq⟩
      injection heq with hprincipal hentity
      subst hprincipal hentity
      exact Grants.mem_removed.mp hkey
    · intro h
      exact ⟨⟨principal, entity⟩, Grants.mem_removed.mpr h, rfl⟩
  | rules => simp [Tells]

theorem nodup_dropRecord (s : Snapshot) (id : EntityId) : (s.dropRecord id).1.Nodup := by
  have hkeys : (s.grants.removeEntity id).1.Nodup := ExtTreeMap.nodup_keys.filter _
  refine List.nodup_append.mpr ⟨hkeys.map ?_, List.nodup_singleton _, fun c hc c' hc' => ?_⟩
  · intro key key' heq
    injection heq with hprincipal hentity
    cases key
    cases key'
    rw [GrantKey.mk.injEq]
    exact ⟨hprincipal, hentity⟩
  · obtain ⟨key, _, rfl⟩ := List.mem_map.mp hc
    rw [List.mem_singleton.mp hc']
    simp

theorem erase_eq_filter (entities : EntityMap Entity) (id : EntityId) :
    entities.erase id = entities.filter fun x _ => !decide (x = id) := by
  apply ExtTreeMap.ext_getElem?
  intro x
  rw [ExtTreeMap.getElem?_erase, ExtTreeMap.getElem?_filter']
  by_cases hx : id = x
  · simp [hx]
  · simp [hx, Ne.symm hx, filter_true]

theorem drops_removeRelationship (h : s.Links id source target) :
    s.Drops (s.removeRelationship id source target).2 (fun x => x = id)
      (s.removeRelationship id source target).1 where
  entities := erase_eq_filter s.entities id
  grants := Grants.rows_removeEntity s.grants id
  rules := rfl
  version := rfl
  nodup := by
    obtain ⟨e, he⟩ := h.exists_entity
    refine List.nodup_cons.mpr ⟨fun hc => ?_, nodup_dropRecord _ id⟩
    exact ((mem_dropRecord he).mp hc).2 id source target rfl
  mem_changes c := by
    obtain ⟨e, he, hkind⟩ := links_iff.mp h
    show c ∈ Change.relationship id source target :: (s.dropRecord id).1 ↔ _
    rw [List.mem_cons, mem_dropRecord he]
    cases c with
    | relationship r from' to' =>
      simp only [Change.relationship.injEq, Tells, decide_eq_true_eq]
      constructor
      · rintro (⟨rfl, rfl, rfl⟩ | ⟨_, hne⟩)
        · exact ⟨rfl, e, he, hkind⟩
        · exact absurd rfl (hne r from' to')
      · rintro ⟨rfl, e', he', hkind'⟩
        obtain ⟨hfrom, hto⟩ := h.unique (links_of_kind he' hkind')
        exact .inl ⟨rfl, hfrom, hto⟩
    | entity x => simp
    | grant principal entity => simp
    | rules => simp

theorem drops_removeNode (h : s.IsNode id) :
    s.Drops (s.removeNode id).2 (fun x => x = id) (s.removeNode id).1 where
  entities := erase_eq_filter s.entities id
  grants := Grants.rows_removeEntity s.grants id
  rules := rfl
  version := rfl
  nodup := nodup_dropRecord _ id
  mem_changes c := by
    obtain ⟨e, he⟩ := h.exists_entity
    show c ∈ (s.dropRecord id).1 ↔ _
    rw [mem_dropRecord he]
    refine ⟨And.left, fun htells => ⟨htells, ?_⟩⟩
    rintro r source target rfl
    obtain ⟨hr, e', he', hkind⟩ := htells
    rw [of_decide_eq_true hr] at he'
    exact not_links_of_isNode h (links_of_kind he' hkind)

/-! ## All of them -/

theorem Removes.drops {l : List EntityId} (h : Removes s l changes s') :
    s.Drops s' (fun x => x ∈ l) changes := by
  induction h with
  | @nil s => simpa using Drops.refl s
  | cons h _ ih =>
    have hgone := (drops_removeRelationship h).trans ih
    simp only [List.mem_cons, Bool.decide_or]
    exact hgone

theorem Consistent.goesWith_eq (hs : s.Consistent) (id : EntityId) :
    s.goesWith id = fun x => decide (x ∈ s.adjacency.touching id) || decide (x = id) := by
  funext x
  have htouching : (s.entity? x).any (·.hasEnd id) = decide (x ∈ s.adjacency.touching id) := by
    rw [Bool.eq_iff_iff, Option.any_eq_true, decide_eq_true_iff, hs.mem_touching_iff]
  rw [goesWith, htouching, Bool.or_comm]

/-- Nothing begins or ends at a relationship. -/
theorem Consistent.goesWith_of_links (hs : s.Consistent) (h : s.Links id source target) :
    s.goesWith id = fun x => decide (x = id) := by
  rw [hs.goesWith_eq]
  funext x
  have hx : x ∉ s.adjacency.touching id := by
    rw [hs.mem_touching]
    rintro ⟨from', to', hlinks, rfl | rfl⟩
    · exact not_links_of_isNode (hs.ends hlinks).1 h
    · exact not_links_of_isNode (hs.ends hlinks).2 h
  simp [hx]

/-- An entity that exists can be removed, and nothing but what goes with it goes. -/
theorem Consistent.exists_removeEntity {e : Entity} (hs : s.Consistent)
    (he : s.entity? id = some e) :
    ∃ changes s', (removeEntity id).on s = (.ok changes, s') ∧
      s.Drops s' (s.goesWith id) changes := by
  rcases on_removeEntity_cases hs he with ⟨source, target, hlinks, hon⟩ | ⟨changes, s', hnode,
    hremoves, hon⟩
  · refine ⟨_, _, hon, ?_⟩
    rw [hs.goesWith_of_links hlinks]
    exact drops_removeRelationship hlinks
  · refine ⟨_, _, hon, ?_⟩
    rw [hs.goesWith_eq]
    exact hremoves.drops.trans (drops_removeNode (hremoves.isNode_iff.mpr hnode))

end Snapshot

namespace Session

/-- Whatever is requested of a session, in every open transaction an entity that exists can be
deleted. It goes with its relationships and the grants held by these or on these, the changes of the
transaction tell of each once, and all else stays. -/
theorem deletion_run (settings : Settings) (requests : List Request) {name : String}
    {t : Transaction} (ht : ((new settings).run requests).transaction? name = some t)
    {id : EntityId} {e : Entity} (he : t.current.entity? id = some e) :
    ∃ t' changes, ((new settings).run requests).step (.write name (.deleteEntity id)) =
        (.written (.ok .done),
          { db := ((new settings).run requests).db
            transactions := ((new settings).run requests).transactions.insert name t' }) ∧
      t'.base = t.base ∧ t'.changes = t.changes ++ changes ∧
      t.current.Drops t'.current (t.current.goesWith id) changes := by
  have hs := ((sound_run (sound_new settings) requests).fits ht).1.sound.current
  obtain ⟨changes, s, hremove, hdrops⟩ := hs.exists_removeEntity he
  have hplan : t.current.planDelete id = .ok (some (s, changes)) := by
    rw [Snapshot.planDelete, Action.outcome, hremove]
    rfl
  have hrun := Write.on_plain ⟨((new settings).run requests).db, t⟩
    (Transaction.on_deleteEntity hs id)
  rw [hplan] at hrun
  refine ⟨t.write s changes, changes, ?_, t.base_write s changes, t.changes_write s changes, ?_⟩
  · rw [step, ht]
    dsimp only
    rw [Write.run, Write.act, hrun]
    rfl
  · rw [t.current_write s changes]
    exact hdrops

/-- A page that is linked with itself and twice with another. There are grants on the page, held by
it, and held by it on one of its links. -/
def tangle : List Request :=
  [.begin "setup", .write "setup" (.createNode "User"), .write "setup" (.createNode "Page"),
    .write "setup" (.createNode "Page"), .write "setup" (.createRelationship "Link" ⟨2⟩ ⟨2⟩),
    .write "setup" (.createRelationship "Link" ⟨2⟩ ⟨3⟩),
    .write "setup" (.createRelationship "Link" ⟨2⟩ ⟨3⟩),
    .write "setup" (.createRelationship "Link" ⟨3⟩ ⟨1⟩), .write "setup" (.grant ⟨1⟩ ⟨2⟩ .full),
    .write "setup" (.grant ⟨2⟩ ⟨5⟩ .full), .write "setup" (.grant ⟨2⟩ ⟨7⟩ .full),
    .write "setup" (.grant ⟨1⟩ ⟨7⟩ .full), .commit "setup", .begin "writer"]

theorem deletion_run_tangle :
    ∃ t e t' changes, ((new {}).run tangle).transaction? "writer" = some t ∧
      t.current.entity? ⟨2⟩ = some e ∧
      ((new {}).run tangle).step (.write "writer" (.deleteEntity ⟨2⟩)) = (.written (.ok .done),
        { db := ((new {}).run tangle).db
          transactions := ((new {}).run tangle).transactions.insert "writer" t' }) ∧
      t.current.Drops t'.current (t.current.goesWith ⟨2⟩) changes ∧
      t'.changes =
        [.relationship ⟨4⟩ ⟨2⟩ ⟨2⟩, .entity ⟨4⟩,
          .relationship ⟨5⟩ ⟨2⟩ ⟨3⟩, .grant ⟨2⟩ ⟨5⟩, .entity ⟨5⟩,
          .relationship ⟨6⟩ ⟨2⟩ ⟨3⟩, .entity ⟨6⟩,
          .grant ⟨1⟩ ⟨2⟩, .grant ⟨2⟩ ⟨7⟩, .entity ⟨2⟩] := by
  obtain ⟨t, ht, hexists⟩ := (Option.any_eq_true _ _).mp
    (show (((new {}).run tangle).transaction? "writer").any (fun t =>
      (t.current.entity? ⟨2⟩).isSome) = true by decide +kernel)
  obtain ⟨e, he⟩ := Option.isSome_iff_exists.mp hexists
  obtain ⟨t', changes, hstep, _, _, hdrops⟩ := deletion_run {} tangle ht he
  have hchanges : ((((new {}).run tangle).step (.write "writer" (.deleteEntity ⟨2⟩))).2.transaction?
      "writer").any (fun t' => t'.changes =
        [.relationship ⟨4⟩ ⟨2⟩ ⟨2⟩, .entity ⟨4⟩,
          .relationship ⟨5⟩ ⟨2⟩ ⟨3⟩, .grant ⟨2⟩ ⟨5⟩, .entity ⟨5⟩,
          .relationship ⟨6⟩ ⟨2⟩ ⟨3⟩, .entity ⟨6⟩,
          .grant ⟨1⟩ ⟨2⟩, .grant ⟨2⟩ ⟨7⟩, .entity ⟨2⟩]) = true := by decide +kernel
  rw [hstep, transaction?, ExtTreeMap.getElem?_insert_self] at hchanges
  exact ⟨t, e, t', changes, ht, he, hstep, hdrops, of_decide_eq_true hchanges⟩

end Session
end PermissionGraph
