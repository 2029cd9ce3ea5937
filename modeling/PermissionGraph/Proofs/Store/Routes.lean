import PermissionGraph.Proofs.Store.Lookups
import PermissionGraph.Proofs.Value.Filter

/-!
# PermissionGraph.Proofs.Store.Routes

Relationships and paths follow their nodes. In a consistent snapshot nothing touches a relationship
and nothing draws on one, so what is held on a relationship is its base, and reading where both of
its ends can be read, whatever the rules say and however the ends are resolved.

* `Snapshot.Consistent.not_onCycle`: a relationship is on no cycle.
* `Snapshot.IsRoute`: nodes and relationships in turn, each relationship between its neighbours.
* `Session.follows_nodes`: the permissions on relationships and the filter of paths, over any run.
-/

namespace PermissionGraph

open Std Derivations

variable {ε : Type}

theorem Path.alternate_sublist {α : Type} (l : List α) : (alternate l).Sublist l := by
  fun_induction alternate l with
  | case1 => exact .slnil
  | case2 a => exact .refl _
  | case3 a b rest ih => exact (ih.cons b).cons_cons a

theorem Derivation.combine_of_untouched {view : GraphView ε} {settings : Settings}
    {members : List Member} {principal : Principal} {id source target : EntityId} {e : Entity}
    {d : Derivation} (hof : Derivation.of view settings members principal id e = .ok d)
    (hincidents : view.incidents id = .ok [])
    (hreadable : settings.readableFromEndpoints = true)
    (hends : e.endpoints? = some (source, target)) (held : EntityId → PermissionSet) :
    d.combine held = d.base ∪ (Input.endpoints source target).added held := by
  obtain ⟨incidents, _, hfound, hinputs⟩ := Derivation.of_eq_ok_iff.mp hof
  have hnone : incidents = [] := by
    rw [hincidents] at hfound
    injection hfound with hfound
    exact hfound.symm
  have hpropagated : propagatedInputs view.rules [] = [] :=
    List.eq_nil_iff_forall_not_mem.mpr fun i hi => by simpa using mem_propagatedInputs.mp hi
  rw [hnone, hpropagated, List.append_nil] at hinputs
  have hremoved : PermissionSet.sum (d.inputs.map (·.removed held)) = ∅ := by
    refine PermissionSet.sum_eq_empty (List.forall_mem_map.mpr fun i hi => ?_)
    rw [hinputs] at hi
    obtain ⟨_, _, _, rfl⟩ := exists_of_mem_endpointInputs hi
    rfl
  rw [combine, hremoved, PermissionSet.sdiff_empty, hinputs, endpointInputs, hreadable, hends,
    Bool.true_and]
  cases hbase : d.base.holds .read with
  | false => exact PermissionSet.ext_bits (by simp [PermissionSet.sum])
  | true =>
    -- the input is left out, and would add nothing
    have hadds : (Input.endpoints source target).added held ≤ d.base := by
      rw [Input.added]
      split
      · exact PermissionSet.single_le_iff.mpr hbase
      · exact PermissionSet.empty_le _
    rw [PermissionSet.le_iff_union_eq.mp hadds]
    exact PermissionSet.union_empty _

namespace Snapshot

variable {s : Snapshot} {settings : Settings} {principal : Principal}
  {id r source target : EntityId} {l : List EntityId}

/-! ## Relationships -/

theorem Consistent.incidents_of_links (h : s.Consistent) (hlinks : s.Links r source target) :
    s.incidents r = .ok [] := by
  obtain ⟨l, hl⟩ := exists_incidents h r
  rw [hl]
  congr 1
  refine List.eq_nil_iff_forall_not_mem.mpr fun i hi => ?_
  obtain ⟨other, a, b, hother, hends⟩ := (mem_incidents_iff h hl).mp hi
  rcases Incident.mem_ofRelationship.mp hends with ⟨rfl, _⟩ | ⟨rfl, _⟩
  · exact not_links_of_isNode (h.ends hother).1 hlinks
  · exact not_links_of_isNode (h.ends hother).2 hlinks

theorem Consistent.isNode_of_draws (h : s.Consistent)
    (hdraws : ((s.access settings).derivations principal).Draws id r) : s.IsNode r := by
  obtain ⟨d, hd, ho⟩ := hdraws
  have hreads := Access.reads_of_getElem? hd
  obtain ⟨i, hi, ho⟩ := Derivation.mem_origins.mp ho
  cases i with
  | propagated other rule =>
    obtain ⟨incidents, hincidents, hpropagated⟩ := hreads.propagated
    obtain ⟨i, hi, _, _, hother⟩ := (hpropagated other rule).mp hi
    rw [List.mem_singleton.mp ho, hother]
    exact h.isNode_other hincidents hi
  | endpoints a b =>
    obtain ⟨e, he, hendpoints⟩ := hreads.endpoints
    obtain ⟨_, _, hends⟩ := (hendpoints a b).mp hi
    have hnodes := h.ends (links_of_kind (view_entity_eq.mp he)
      (Entity.endpoints?_eq_some_iff.mp hends))
    rcases List.mem_pair.mp ho with rfl | rfl
    · exact hnodes.1
    · exact hnodes.2

theorem Consistent.not_onCycle (h : s.Consistent) (hlinks : s.Links r source target) :
    ¬ ((s.access settings).derivations principal).OnCycle r := by
  intro hcycle
  obtain ⟨_, _, hdraws⟩ := Relation.TransGen.tail'_iff.mp hcycle
  exact not_links_of_isNode (h.isNode_of_draws hdraws) hlinks

theorem Consistent.permissions_entries (h : s.Consistent)
    (hreadable : settings.readableFromEndpoints = true) {e : Entity} (he : s.entity? r = some e)
    (hkind : e.kind = .relationship source target) :
    ∃ members base consulted, (s.access settings).members principal = .ok members ∧
      Derivation.baseOf s.view members principal r e = .ok (base, consulted) ∧
      ((s.access settings).derivations principal).entries.permissions r =
        base ∪ (Input.endpoints source target).added
          ((s.access settings).derivations principal).entries.permissions := by
  have hcomplete := h.isComplete settings principal he
  obtain ⟨d, hd⟩ := mem_iff_getElem?.mp hcomplete.mem
  obtain ⟨members, found, hm, hfound, hof⟩ := Access.exists_of_getElem?_derivations hd
  have hsame : found = e := Option.some_inj.mp ((view_entity_eq.mp hfound).symm.trans he)
  rw [hsame] at hof
  obtain ⟨_, hbase, _⟩ := Derivation.of_eq_ok_iff.mp hof
  have hlinks := links_of_kind he hkind
  refine ⟨members, d.base, d.consulted, hm, hbase, ?_⟩
  rw [hcomplete.permissions_entries hd fun hcycle => absurd hcycle (h.not_onCycle hlinks)]
  exact Derivation.combine_of_untouched hof (h.incidents_of_links hlinks) hreadable
    (Entity.endpoints?_eq_some_iff.mpr hkind) _

theorem Consistent.answer_empty_eq (h : s.Consistent)
    (hsuper : (s.access settings).isSuperuser principal = .ok false) {e : Entity}
    (he : s.entity? id = some e) :
    ((s.access settings).answer ∅ principal id).map Prod.fst =
      .ok (((s.access settings).derivations principal).entries.permissions id) := by
  obtain ⟨entry, hentry⟩ := exists_entries (h.isComplete settings principal he)
  rw [Access.answer_of_entries hsuper Access.trusts_empty hentry, Entries.permissions, hentry]

theorem Consistent.sees_of_ends (h : s.Consistent)
    (hreadable : settings.readableFromEndpoints = true) (hlinks : s.Links r source target)
    (hsource : (s.access settings).sees principal source = .ok true)
    (htarget : (s.access settings).sees principal target = .ok true) :
    (s.access settings).sees principal r = .ok true := by
  obtain ⟨name, hname⟩ := hlinks
  obtain ⟨e, he, _, hkind⟩ := exists_of_shape hname
  obtain ⟨a, ha⟩ := (h.ends (links_of_kind he hkind)).1.exists_entity
  obtain ⟨b, hb⟩ := (h.ends (links_of_kind he hkind)).2.exists_entity
  obtain ⟨heldSource, hheldSource, hreadSource⟩ := Access.sees_eq_ok_iff.mp hsource
  obtain ⟨heldTarget, hheldTarget, hreadTarget⟩ := Access.sees_eq_ok_iff.mp htarget
  cases hsuper : (s.access settings).isSuperuser principal with
  | error cause =>
    rw [Access.answer_eq, hsuper] at hheldSource
    cases hheldSource
  | ok exempt =>
    cases exempt with
    | true =>
      obtain ⟨⟨held, memo⟩, hanswer⟩ := exists_answer_empty h hsuper he
      have hfull := Access.eq_full_of_answer hsuper hanswer
      rw [Access.sees, hanswer, hfull]
      exact congrArg Except.ok (PermissionSet.holds_full .read)
    | false =>
      obtain ⟨_, base, _, _, _, hheld⟩ := h.permissions_entries hreadable he hkind
      rw [h.answer_empty_eq hsuper ha] at hheldSource
      rw [h.answer_empty_eq hsuper hb] at hheldTarget
      injection hheldSource with hheldSource
      injection hheldTarget with hheldTarget
      refine Access.sees_eq_ok_iff.mpr ⟨_, h.answer_empty_eq hsuper he, ?_⟩
      rw [hheld, Input.added, hheldSource, hheldTarget, hreadSource, hreadTarget]
      simp

/-! ## Paths -/

/-- Nodes and relationships in turn, where each relationship lies between the nodes next to it, in
either direction. -/
inductive IsRoute (s : Snapshot) : List EntityId → Prop
  | stay (node : EntityId) : IsRoute s [node]
  | hop {node r next : EntityId} {rest : List EntityId}
      (h : s.Links r node next ∨ s.Links r next node) (hrest : IsRoute s (next :: rest)) :
      IsRoute s (node :: r :: next :: rest)

theorem IsRoute.sees_of_nodes (hroute : s.IsRoute l) (h : s.Consistent)
    (hreadable : settings.readableFromEndpoints = true)
    (hnodes : ∀ node ∈ Path.alternate l, (s.access settings).sees principal node = .ok true) :
    ∀ id ∈ l, (s.access settings).sees principal id = .ok true := by
  induction hroute with
  | stay node => exact hnodes
  | @hop node r next rest hlinks hrest ih =>
    rw [Path.alternate, List.forall_mem_cons] at hnodes
    obtain ⟨hnode, hnodes⟩ := hnodes
    have hothers := ih hnodes
    have hnext := hothers next List.mem_cons_self
    have hr : (s.access settings).sees principal r = .ok true := by
      rcases hlinks with hlinks | hlinks
      · exact h.sees_of_ends hreadable hlinks hnode hnext
      · exact h.sees_of_ends hreadable hlinks hnext hnode
    exact List.forall_mem_cons.mpr ⟨hnode, List.forall_mem_cons.mpr ⟨hr, hothers⟩⟩

/-- The filter keeps a route as a whole if all of its nodes can be read, and drops it if not. -/
theorem Consistent.filter_route (h : s.Consistent)
    (hreadable : settings.readableFromEndpoints = true) {p : Path} (hroute : s.IsRoute p.elements)
    {reduced : Option Value}
    (hr : (((s.access settings).filter principal (.path p)).ask ∅).1 = .ok reduced) :
    (reduced = some (.path p) ∨ reduced = none) ∧ (reduced = some (.path p) ↔
      ∀ node ∈ p.nodes, (s.access settings).sees principal node = .ok true) := by
  have hreduces := Access.coherent_empty.reduces_filter hr
  cases reduced with
  | some left =>
    cases hreduces with
    | path hall =>
      exact ⟨.inl rfl, fun _ node hnode => hall node ((Path.alternate_sublist _).subset hnode),
        fun _ => rfl⟩
  | none =>
    cases hreduces with
    | path hmem hunseen =>
      refine ⟨.inr rfl, nofun, fun hnodes => ?_⟩
      have hseen := hroute.sees_of_nodes h hreadable hnodes _ hmem
      rw [hunseen] at hseen
      cases hseen

end Snapshot

namespace Transaction

/-- What a transaction tells of the permissions of a principal on an entity. -/
def tells (t : Transaction) (db : Database) (principal : Principal) (id : EntityId) :
    Except (AccessError StoreError) PermissionSet :=
  (t.ask db (·.permissions principal id)).1

end Transaction

namespace Session

/-- Relationships and paths follow their nodes. Whatever has been requested of a store in which
relationships can be read over their ends, and whatever the rules of an open transaction say: what a
principal holds on a relationship is its base, and reading where it holds that on both ends. So of
the paths of the graph, the filter keeps those over nodes that can all be read. -/
theorem follows_nodes (settings : Settings) (hreadable : settings.readableFromEndpoints = true)
    (requests : List Request) {name : String} {t : Transaction}
    (h : ((new settings).run requests).transaction? name = some t) (principal : Principal) :
    (∀ r e source target, (t.current.access settings).isSuperuser principal = .ok false →
      t.current.entity? r = some e → e.kind = .relationship source target →
      ∃ members base consulted heldSource heldTarget,
        (t.current.access settings).members principal = .ok members ∧
        Derivation.baseOf t.current.view members principal r e = .ok (base, consulted) ∧
        t.tells ((new settings).run requests).db principal source = .ok heldSource ∧
        t.tells ((new settings).run requests).db principal target = .ok heldTarget ∧
        t.tells ((new settings).run requests).db principal r =
          .ok (base ∪ if heldSource.holds .read && heldTarget.holds .read then .single .read
            else ∅)) ∧
    ∀ p reduced, t.current.IsRoute p.elements →
      (t.ask ((new settings).run requests).db (·.filter principal (.path p))).1 = .ok reduced →
      (reduced = some (.path p) ∨ reduced = none) ∧ (reduced = some (.path p) ↔
        ∀ node ∈ p.nodes, ∃ held,
          t.tells ((new settings).run requests).db principal node = .ok held ∧
            held.holds .read = true) := by
  have hsound := sound_run (sound_new settings) requests
  have hs := (hsound.fits h).1.sound.current
  have htells : ∀ id, t.tells ((new settings).run requests).db principal id =
      ((t.current.access settings).answer ∅ principal id).map Prod.fst :=
    hsound.permissions_eq h principal
  constructor
  · intro r e source target hsuper he hkind
    obtain ⟨hsource, htarget⟩ := hs.ends (Snapshot.links_of_kind he hkind)
    obtain ⟨a, ha⟩ := hsource.exists_entity
    obtain ⟨b, hb⟩ := htarget.exists_entity
    obtain ⟨members, base, consulted, hm, hbase, hheld⟩ :=
      hs.permissions_entries hreadable he hkind
    refine ⟨members, base, consulted, _, _, hm, hbase,
      (htells source).trans (hs.answer_empty_eq hsuper ha),
      (htells target).trans (hs.answer_empty_eq hsuper hb), ?_⟩
    rw [htells r, hs.answer_empty_eq hsuper he, hheld, Input.added]
  · intro p reduced hroute hreduced
    have hask : (t.ask ((new settings).run requests).db (·.filter principal (.path p))).1 =
        (((t.current.access settings).filter principal (.path p)).ask ∅).1 :=
      hsound.alike h fun _ _ halike => Access.alike_filter halike principal (.path p)
    rw [hask] at hreduced
    obtain ⟨hcases, hiff⟩ := hs.filter_route hreadable hroute hreduced
    refine ⟨hcases, hiff.trans (forall₂_congr fun node _ => ?_)⟩
    rw [htells node]
    exact Access.sees_eq_ok_iff

/-- A page passes reading on to another, which takes reading away from it: what the first is granted
stays with it. A note leads to it from a third page that can be read. -/
def standoff : List Request :=
  [.begin "setup", .write "setup" (.createNode "User"), .write "setup" (.createNode "Page"),
    .write "setup" (.createNode "Page"), .write "setup" (.createNode "Page"),
    .write "setup" (.createRelationship "Link" ⟨2⟩ ⟨3⟩),
    .write "setup" (.createRelationship "Bar" ⟨3⟩ ⟨2⟩),
    .write "setup" (.createRelationship "Note" ⟨4⟩ ⟨2⟩),
    .write "setup" (.declareRule "Link" ⟨.outward, { read := .add }⟩),
    .write "setup" (.declareRule "Bar" ⟨.outward, { read := .remove }⟩),
    .write "setup" (.grant ⟨1⟩ ⟨2⟩ (.single .read)), .commit "setup", .begin "writer",
    .question "writer" (.permissions (.user ⟨1⟩) ⟨7⟩),
    .write "writer" (.grant ⟨1⟩ ⟨4⟩ (.single .read))]

theorem follows_nodes_standoff :
    ∃ writer base, ((new {}).run standoff).transaction? "writer" = some writer ∧
      writer.tells ((new {}).run standoff).db (.user ⟨1⟩) ⟨7⟩ = .ok (base ∪ .single .read) ∧
      (writer.ask ((new {}).run standoff).db
        (·.filter (.user ⟨1⟩) (.path ⟨[⟨2⟩, ⟨7⟩, ⟨4⟩]⟩))).1 =
          .ok (some (.path ⟨[⟨2⟩, ⟨7⟩, ⟨4⟩]⟩)) ∧
      (writer.ask ((new {}).run standoff).db
        (·.filter (.user ⟨1⟩) (.path ⟨[⟨4⟩, ⟨7⟩, ⟨2⟩, ⟨5⟩, ⟨3⟩]⟩))).1 = .ok none := by
  obtain ⟨writer, hwriter, hfacts⟩ := (Option.any_eq_true _ _).mp
    (show (((new {}).run standoff).transaction? "writer").any (fun t =>
      (t.current.access {}).isSuperuser (.user ⟨1⟩) = .ok false ∧
      t.current.shape? ⟨5⟩ = some ("Link", .relationship ⟨2⟩ ⟨3⟩) ∧
      t.current.shape? ⟨7⟩ = some ("Note", .relationship ⟨4⟩ ⟨2⟩) ∧
      [⟨2⟩, ⟨3⟩, ⟨4⟩].map (t.tells ((new {}).run standoff).db (.user ⟨1⟩)) =
        [.ok (.single .read), .ok ∅, .ok (.single .read)] ∧
      [⟨[⟨2⟩, ⟨7⟩, ⟨4⟩]⟩, ⟨[⟨4⟩, ⟨7⟩, ⟨2⟩, ⟨5⟩, ⟨3⟩]⟩].map (fun p =>
        (t.ask ((new {}).run standoff).db (·.filter (.user ⟨1⟩) (.path p))).1.map fun _ => ()) =
          [.ok (), .ok ()]) = true by decide +kernel)
  obtain ⟨hsuper, hlink, hnote, htells, hasked⟩ := of_decide_eq_true hfacts
  simp only [List.map_cons, List.map_nil, List.cons.injEq, and_true] at htells hasked
  obtain ⟨h2, h3, h4⟩ := htells
  obtain ⟨hkept, hdropped⟩ := hasked
  obtain ⟨hrelationship, hpath⟩ := follows_nodes {} rfl standoff hwriter (.user ⟨1⟩)
  have hnear : writer.current.IsRoute [⟨2⟩, ⟨7⟩, ⟨4⟩] := .hop (.inr ⟨_, hnote⟩) (.stay _)
  have hfar : writer.current.IsRoute [⟨4⟩, ⟨7⟩, ⟨2⟩, ⟨5⟩, ⟨3⟩] :=
    .hop (.inl ⟨_, hnote⟩) (.hop (.inl ⟨_, hlink⟩) (.stay _))
  obtain ⟨e, he, _, hkind⟩ := Snapshot.exists_of_shape hnote
  obtain ⟨_, base, _, source, target, _, _, hsource, htarget, hheld⟩ :=
    hrelationship ⟨7⟩ e ⟨4⟩ ⟨2⟩ hsuper he hkind
  obtain ⟨near, hreduced, _⟩ := exists_of_map_eq_ok hkept
  obtain ⟨far, hreduced', _⟩ := exists_of_map_eq_ok hdropped
  refine ⟨writer, base, hwriter, ?_, ?_, ?_⟩
  · rw [hsource] at h4
    rw [htarget] at h2
    injection h4 with h4
    injection h2 with h2
    rw [hheld, h4, h2]
    rfl
  · have hseen := (hpath ⟨[⟨2⟩, ⟨7⟩, ⟨4⟩]⟩ near hnear hreduced).2.mpr
      (List.forall_mem_cons.mpr ⟨⟨_, h2, rfl⟩, List.forall_mem_singleton.mpr ⟨_, h4, rfl⟩⟩)
    rw [hreduced, hseen]
  · obtain ⟨hcases, hiff⟩ := hpath ⟨[⟨4⟩, ⟨7⟩, ⟨2⟩, ⟨5⟩, ⟨3⟩]⟩ far hfar hreduced'
    rcases hcases with hseen | hnone
    · obtain ⟨held, hheld, hread⟩ := hiff.mp hseen ⟨3⟩ (by decide)
      rw [h3] at hheld
      injection hheld with hheld
      rw [← hheld] at hread
      cases hread
    · rw [hreduced', hnone]

end Session
end PermissionGraph
