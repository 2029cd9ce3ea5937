import PermissionGraph.Graph.Tables
import PermissionGraph.Proofs.Access.Answer

/-!
# PermissionGraph.Proofs.Access.Available

Graphs whose look-ups succeed. There the groups of every principal can be had (`exists_members`),
and an entity that reaches none but entities of the graph is complete (`isComplete_of_exists`). In a
graph without dangling relationships that is every entity of the graph (`exists_of_reaches`).
-/

namespace PermissionGraph

open Std Derivations

variable {ε : Type} {view : GraphView ε} {settings : Settings} {members : List Member}
  {principal : Principal} {id : EntityId} {e : Entity}

/-- Every look-up succeeds. That of an entity may succeed in finding none. -/
structure GraphView.Available (view : GraphView ε) : Prop where
  entity : ∀ id, ∃ found, view.entity? id = .ok found
  incidents : ∀ id, ∃ found, view.incidents id = .ok found
  granted : ∀ principal id, ∃ found, view.granted principal id = .ok found

/-- Both endpoints of a relationship are in the graph, and so is the other end of every
relationship that touches an entity of the graph. -/
structure GraphView.Closed (view : GraphView ε) : Prop where
  source : ∀ {id : EntityId} {e : Entity} {source target : EntityId},
    view.entity? id = .ok (some e) → e.endpoints? = some (source, target) →
      ∃ found, view.entity? source = .ok (some found)
  target : ∀ {id : EntityId} {e : Entity} {source target : EntityId},
    view.entity? id = .ok (some e) → e.endpoints? = some (source, target) →
      ∃ found, view.entity? target = .ok (some found)
  other : ∀ {id : EntityId} {incidents : List Incident} {i : Incident},
    view.incidents id = .ok incidents → i ∈ incidents →
      ∃ found, view.entity? i.other = .ok (some found)

theorem exists_mapM {α β : Type} {f : α → Except ε β} (h : ∀ a, ∃ b, f a = .ok b) (l : List α) :
    ∃ bs, l.mapM f = .ok bs := by
  induction l with
  | nil => exact ⟨[], rfl⟩
  | cons a l ih =>
    obtain ⟨b, hb⟩ := h a
    obtain ⟨bs, hbs⟩ := ih
    rw [List.mapM_cons, hb, hbs]
    exact ⟨b :: bs, rfl⟩

namespace Membership

theorem exists_hops (h : ∀ x, ∃ l, view.incidents x = .ok l) (member : EntityId) :
    ∃ found, hops view settings member = .ok found := by
  obtain ⟨l, hl⟩ := h member
  rw [hops, hl]
  exact ⟨_, rfl⟩

theorem exists_levels (h : ∀ x, ∃ l, view.incidents x = .ok l) (depth : Nat) (known : EntitySet)
    (level : List EntityId) : ∃ members, levels view settings depth known level = .ok members := by
  have hdeepest : ∀ member, ∃ m, deepest view settings member = .ok m := by
    intro member
    obtain ⟨found, hfound⟩ := exists_hops h member
    rw [deepest, hfound]
    exact ⟨_, rfl⟩
  have hdeeper : ∀ known member, ∃ m, deeper view settings known member = .ok m := by
    intro known member
    obtain ⟨found, hfound⟩ := exists_hops h member
    rw [deeper, hfound]
    exact ⟨_, rfl⟩
  induction depth generalizing known level with
  | zero =>
    cases level with
    | nil => exact ⟨[], rfl⟩
    | cons id level => exact exists_mapM hdeepest (id :: level)
  | succ depth ih =>
    cases level with
    | nil => exact ⟨[], rfl⟩
    | cons id level =>
      obtain ⟨found, hfound⟩ := exists_mapM (hdeeper known) (id :: level)
      obtain ⟨rest, hrest⟩ := ih ((nextLevel found).foldl .insert known) (nextLevel found)
      exact ⟨found ++ rest, levels_cons_eq_ok_iff.mpr ⟨found, hfound, rest, hrest, rfl⟩⟩

/-- A user has groups in a graph all of whose relationships can be had. -/
theorem exists_closure (h : ∀ x, ∃ l, view.incidents x = .ok l) (settings : Settings)
    (user : EntityId) : ∃ members, closure view settings user = .ok members := by
  obtain ⟨members, hm⟩ := exists_levels h settings.maxGroupDepth {user} [user]
  rw [closure, hm]
  exact ⟨members.reverse, rfl⟩

theorem exists_evaluate (h : view.Available) (members : List Member)
    (held : EntityMap PermissionSet) : ∃ found, evaluate view id members held = .ok found := by
  induction members generalizing held with
  | nil => exact ⟨held, rfl⟩
  | cons m rest ih =>
    obtain ⟨granted, hg⟩ := h.granted m.id id
    rw [evaluate, hg]
    exact ih _

theorem exists_inherited (h : view.Available) (members : List Member) (user id : EntityId) :
    ∃ granted, inherited view members user id = .ok granted := by
  obtain ⟨held, hheld⟩ := @exists_evaluate ε view id h members ∅
  rw [inherited, hheld]
  exact ⟨_, rfl⟩

end Membership

theorem Derivation.exists_baseOf (h : view.Available) (members : List Member)
    (principal : Principal) (id : EntityId) (e : Entity) :
    ∃ s, baseOf view members principal id e = .ok s := by
  cases principal with
  | superuser => exact ⟨_, rfl⟩
  | anonymous => exact ⟨_, rfl⟩
  | user user =>
    by_cases ho : e.owner = some user
    · exact ⟨_, baseOf_of_owner ho⟩
    · obtain ⟨granted, hg⟩ := Membership.exists_inherited h members user id
      rw [baseOf_of_not_owner ho, hg]
      exact ⟨_, rfl⟩

theorem Discovery.exists_derive (h : view.Available) (members : List Member)
    (principal : Principal) (he : view.entity? id = .ok (some e)) :
    ∃ d, derive view settings members principal id = .ok d := by
  obtain ⟨⟨base, consulted⟩, hb⟩ := Derivation.exists_baseOf h members principal id e
  obtain ⟨incidents, hi⟩ := h.incidents id
  let inputs := Derivation.endpointInputs settings base e ++
    Derivation.propagatedInputs view.rules incidents
  have hof : Derivation.of view settings members principal id e = .ok { base, inputs, consulted } :=
    Derivation.of_eq_ok_iff.mpr ⟨incidents, hb, hi, rfl⟩
  exact ⟨_, derive_eq_ok_iff.mpr ⟨e, he, hof⟩⟩

/-- What permissions are drawn from is in a graph without dangling relationships. -/
theorem Derivation.exists_of_mem_origins {d : Derivation} {o : EntityId} (h : view.Closed)
    (he : view.entity? id = .ok (some e))
    (hd : Derivation.of view settings members principal id e = .ok d) (ho : o ∈ d.origins) :
    ∃ found, view.entity? o = .ok (some found) := by
  obtain ⟨incidents, _, hi, hinputs⟩ := of_eq_ok_iff.mp hd
  obtain ⟨input, hinput, ho⟩ := mem_origins.mp ho
  rw [hinputs, List.mem_append] at hinput
  rcases hinput with hinput | hinput
  · obtain ⟨source, target, hends, rfl⟩ := exists_of_mem_endpointInputs hinput
    rcases List.mem_cons.mp ho with rfl | ho
    · exact h.source he hends
    · rw [List.mem_singleton.mp ho]
      exact h.target he hends
  · obtain ⟨i, hmem, _, rfl⟩ := mem_propagatedInputs.mp hinput
    rw [List.mem_singleton.mp ho]
    exact h.other hi hmem

namespace Access

variable {a : Access ε} {root : EntityId}

theorem exists_members (h : ∀ x, ∃ l, a.view.incidents x = .ok l) (principal : Principal) :
    ∃ members, a.members principal = .ok members := by
  cases principal with
  | superuser => exact ⟨[], rfl⟩
  | anonymous => exact ⟨[], rfl⟩
  | user user =>
    obtain ⟨members, hm⟩ := Membership.exists_closure h a.settings user
    exact ⟨members, by rw [members_eq, hm]⟩

/-- Where look-ups succeed, an entity that reaches none but entities of the graph is complete. -/
theorem isComplete_of_exists (h : a.view.Available)
    (hexists : ∀ id, (a.derivations principal).Reaches root id →
      ∃ e, a.view.entity? id = .ok (some e)) :
    (a.derivations principal).IsComplete root := by
  obtain ⟨members, hm⟩ := exists_members h.incidents principal
  intro id hr
  obtain ⟨e, he⟩ := hexists id hr
  obtain ⟨d, hd⟩ := @Discovery.exists_derive ε a.view a.settings id e h members principal he
  exact mem_of_getElem? ((isTableOf_derivations hm id d).mpr hd)

theorem exists_of_reaches (h : a.view.Closed) (hroot : ∃ e, a.view.entity? root = .ok (some e))
    (hr : (a.derivations principal).Reaches root id) : ∃ e, a.view.entity? id = .ok (some e) := by
  induction hr with
  | refl => exact hroot
  | @tail b c _ hbc _ =>
    obtain ⟨d, hd, hc⟩ := hbc
    obtain ⟨members, e, _, he, hof⟩ := exists_of_getElem?_derivations hd
    exact Derivation.exists_of_mem_origins h he hof hc

end Access

/-! ## Tables -/

namespace Tables

variable {t : Tables}

theorem entity?_recover (t : Tables) (id : EntityId) :
    t.recover.view.entity? id = .ok t.entities[id]? := by
  simp [view, recover]

theorem incidents_recover (t : Tables) (id : EntityId) :
    t.recover.view.incidents id =
      .ok (if t.isReversed then (scan t.entities id).reverse else scan t.entities id) := by
  cases h : t.isReversed <;> simp [view, recover, h]

theorem granted_recover (t : Tables) (principal id : EntityId) :
    t.recover.view.granted principal id = .ok (t.grants.lookup principal id) := by
  simp [view, recover]

theorem available_recover (t : Tables) : t.recover.view.Available where
  entity id := ⟨_, t.entity?_recover id⟩
  incidents id := ⟨_, t.incidents_recover id⟩
  granted principal id := ⟨_, t.granted_recover principal id⟩

/-- The incidents of an entity come from the relationships of the table. -/
theorem mem_scan_iff {entities : EntityMap Entity} {id : EntityId} {i : Incident} :
    i ∈ scan entities id ↔ ∃ r e source target, entities[r]? = some e ∧
      e.endpoints? = some (source, target) ∧ i ∈ Incident.ofRelationship id r
        ⟨e.typeName, typeName entities source, typeName entities target⟩ source target := by
  rw [scan, List.mem_flatMap]
  constructor
  · rintro ⟨⟨r, e⟩, hrow, hi⟩
    have he := ExtTreeMap.mem_toList_iff_getElem?_eq_some.mp hrow
    rw [rowIncidents] at hi
    cases hends : e.endpoints? with
    | none => simp [hends] at hi
    | some ends =>
      rw [hends] at hi
      exact ⟨r, e, ends.1, ends.2, he, hends, hi⟩
  · rintro ⟨r, e, source, target, he, hends, hi⟩
    refine ⟨(r, e), ExtTreeMap.mem_toList_iff_getElem?_eq_some.mpr he, ?_⟩
    rw [rowIncidents, hends]
    exact hi

theorem getElem?_of_entity? {id : EntityId} {e : Entity} (h : t.view.entity? id = .ok (some e)) :
    t.entities[id]? = some e := by
  rw [view] at h
  dsimp only at h
  split at h
  · cases h
  · injection h

theorem lookup_of_granted {principal id : EntityId} {s : PermissionSet}
    (h : t.view.granted principal id = .ok s) : t.grants.lookup principal id = s := by
  rw [view] at h
  dsimp only at h
  split at h
  · cases h
  · injection h

theorem mem_incidents_iff {id : EntityId} {l : List Incident} {i : Incident}
    (h : t.view.incidents id = .ok l) : i ∈ l ↔ i ∈ scan t.entities id := by
  rw [view] at h
  dsimp only at h
  split at h
  · cases h
  · cases h
    split
    · exact List.mem_reverse
    · exact Iff.rfl

/-- Whether both endpoints of every relationship are in the tables. -/
def isClosed (t : Tables) : Bool :=
  t.entities.toList.all fun row =>
    match row.2.endpoints? with
    | none => true
    | some (source, target) => t.entities.contains source && t.entities.contains target

theorem isClosed_iff : t.isClosed = true ↔
    ∀ (id : EntityId) (e : Entity) (ends : EntityId × EntityId),
      t.entities[id]? = some e → e.endpoints? = some ends →
        ends.1 ∈ t.entities ∧ ends.2 ∈ t.entities := by
  rw [isClosed, List.all_eq_true]
  constructor
  · intro h id e ends he hends
    have hrow := h (id, e) (ExtTreeMap.mem_toList_iff_getElem?_eq_some.mpr he)
    rw [hends] at hrow
    simpa using hrow
  · rintro h ⟨id, e⟩ hrow
    have he := ExtTreeMap.mem_toList_iff_getElem?_eq_some.mp hrow
    cases hends : e.endpoints? with
    | none => rfl
    | some ends =>
      have hboth := h id e ends he hends
      simpa using hboth

theorem closed_recover (h : t.isClosed = true) : t.recover.view.Closed := by
  have hmem : ∀ {id : EntityId} {e : Entity} {ends : EntityId × EntityId},
      t.entities[id]? = some e → e.endpoints? = some ends →
        (∃ found, t.recover.view.entity? ends.1 = .ok (some found)) ∧
          ∃ found, t.recover.view.entity? ends.2 = .ok (some found) := by
    intro id e ends he hends
    obtain ⟨h₁, h₂⟩ := isClosed_iff.mp h id e ends he hends
    rw [ExtTreeMap.mem_iff_isSome_getElem?, Option.isSome_iff_exists] at h₁ h₂
    obtain ⟨found₁, hfound₁⟩ := h₁
    obtain ⟨found₂, hfound₂⟩ := h₂
    exact ⟨⟨found₁, by rw [entity?_recover, hfound₁]⟩, ⟨found₂, by rw [entity?_recover, hfound₂]⟩⟩
  have hfound : ∀ {id : EntityId} {e : Entity}, t.recover.view.entity? id = .ok (some e) →
      t.entities[id]? = some e := by
    intro id e he
    rw [entity?_recover] at he
    injection he
  constructor
  · intro id e source target he hends
    exact (hmem (hfound he) hends).1
  · intro id e source target he hends
    exact (hmem (hfound he) hends).2
  · intro id incidents i hi hmemi
    obtain ⟨x, e, source, target, he, hends, hmemi⟩ :=
      mem_scan_iff.mp ((mem_incidents_iff hi).mp hmemi)
    rcases Incident.mem_ofRelationship.mp hmemi with ⟨_, rfl⟩ | ⟨_, rfl⟩
    · exact (hmem he hends).2
    · exact (hmem he hends).1

end Tables
end PermissionGraph
