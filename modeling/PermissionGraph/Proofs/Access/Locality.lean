import PermissionGraph.Proofs.Access.Coherent

/-!
# PermissionGraph.Proofs.Access.Locality

An entry rests on enough. Two graphs agree on an entity (`GraphView.AgreeOn`) when they say the same
of it: its record, its relationships and the grants on it. Where two graphs agree on all that an
entry rests on, the entry is right in both, whatever else is different.

* `closure_of_agree`: the groups of a user depend on the relationships of the user and its groups.
* `derive_of_agree`: a derivation depends on what is consulted for it.
* `entries_of_agree`: an entry depends on what it rests on.
-/

namespace PermissionGraph

open Std Derivations

variable {ε : Type} {V V' : GraphView ε} {settings : Settings} {id x : EntityId}

/-- Two graphs say the same of an entity. -/
structure GraphView.AgreeOn (V V' : GraphView ε) (x : EntityId) : Prop where
  entity : V.entity? x = V'.entity? x
  incidents : V.incidents x = V'.incidents x
  granted : ∀ q, V.granted q x = V'.granted q x

theorem GraphView.AgreeOn.symm (h : V.AgreeOn V' x) : V'.AgreeOn V x :=
  ⟨h.entity.symm, h.incidents.symm, fun q => (h.granted q).symm⟩

/-! ## Groups -/

theorem mapM_of_mapM {α β : Type} {f g : α → Except ε β} {l : List α} {bs : List β}
    (h : l.mapM f = .ok bs) (hfg : ∀ a b, b ∈ bs → f a = .ok b → g a = .ok b) :
    l.mapM g = .ok bs := by
  induction l generalizing bs with
  | nil => exact h
  | cons a l ih =>
    obtain ⟨b, cs, ha, hl, rfl⟩ := mapM_cons_eq_ok_iff.mp h
    exact mapM_cons_eq_ok_iff.mpr ⟨b, cs, hfg a b List.mem_cons_self ha,
      ih hl fun a c hc => hfg a c (List.mem_cons_of_mem b hc), rfl⟩

namespace Membership

variable {members : List Member}

theorem hops_congr (hrules : V.rules = V'.rules) {member : EntityId}
    (h : V.incidents member = V'.incidents member) :
    hops V settings member = hops V' settings member := by
  rw [hops, hops, h, hrules]

theorem id_of_deeper {known : EntitySet} {member : EntityId} {m : Member}
    (h : deeper V settings known member = .ok m) : m.id = member := by
  obtain ⟨found, _, rfl⟩ := deeper_eq_ok_iff.mp h
  rfl

theorem id_of_deepest {member : EntityId} {m : Member}
    (h : deepest V settings member = .ok m) : m.id = member := by
  obtain ⟨found, _, rfl⟩ := deepest_eq_ok_iff.mp h
  rfl

/-- Level by level: every member of a level is listed, so the graphs agree on its relationships. -/
theorem levels_of_agree (hrules : V.rules = V'.rules) {depth : Nat} {known : EntitySet}
    {level : List EntityId} (h : levels V settings depth known level = .ok members)
    (hagree : ∀ m ∈ members, V.incidents m.id = V'.incidents m.id) :
    levels V' settings depth known level = .ok members := by
  induction depth generalizing known level members with
  | zero =>
    cases level with
    | nil => exact h
    | cons id level =>
      refine mapM_of_mapM h fun a m hm hok => ?_
      have hid := id_of_deepest hok
      rw [← hok, deepest, deepest, hops_congr hrules (hid ▸ hagree m hm)]
  | succ depth ih =>
    cases level with
    | nil => exact h
    | cons id level =>
      obtain ⟨found, hlevel, rest, hrest, rfl⟩ := levels_cons_eq_ok_iff.mp h
      have hlevel' : (id :: level).mapM (deeper V' settings known) = .ok found := by
        refine mapM_of_mapM hlevel fun a m hm hok => ?_
        have hid := id_of_deeper hok
        have hm := hagree m (List.mem_append_left rest hm)
        rw [← hok, deeper, deeper, hops_congr hrules (hid ▸ hm)]
      have hrest' := ih hrest fun m hm => hagree m (List.mem_append_right found hm)
      exact levels_cons_eq_ok_iff.mpr ⟨found, hlevel', rest, hrest', rfl⟩

theorem closure_of_agree (hrules : V.rules = V'.rules) {user : EntityId}
    (h : closure V settings user = .ok members)
    (hagree : ∀ m ∈ members, V.incidents m.id = V'.incidents m.id) :
    closure V' settings user = .ok members := by
  obtain ⟨found, hfound, rfl⟩ := closure_eq_ok_iff.mp h
  have hfound' := levels_of_agree hrules hfound fun m hm => hagree m (List.mem_reverse.mpr hm)
  exact closure_eq_ok_iff.mpr ⟨found, hfound', rfl⟩

end Membership

/-! ## Derivations -/

theorem inherited_congr {members : List Member} {user : EntityId}
    (h : ∀ q, V.granted q id = V'.granted q id) :
    Membership.inherited V members user id = Membership.inherited V' members user id := by
  have hevaluate : ∀ (l : List Member) (held : EntityMap PermissionSet),
      Membership.evaluate V id l held = Membership.evaluate V' id l held := by
    intro l
    induction l with
    | nil => exact fun _ => rfl
    | cons m l ih =>
      intro held
      rw [Membership.evaluate, Membership.evaluate, h]
      simp only [ih]
  rw [Membership.inherited, Membership.inherited, hevaluate]

namespace Access

variable {a a' : Access ε} {principal : Principal} {members members' : List Member}
  {d : Derivation} {e : MemoEntry}

theorem members_user {user : EntityId} (h : a.members (.user user) = .ok members) :
    Membership.closure a.view a.settings user = .ok members := by
  rw [members_eq] at h
  cases hc : Membership.closure a.view a.settings user with
  | error cause =>
    rw [hc] at h
    cases h
  | ok found =>
    rw [hc] at h
    injection h with h
    rw [h]

/-- Where graphs agree on all that is consulted for a derivation, they have it in common. -/
theorem derive_of_agree (hrules : a.view.rules = a'.view.rules)
    (hsettings : a.settings = a'.settings)
    (hm : a.members principal = .ok members) (hm' : a'.members principal = .ok members')
    (hd : Discovery.derive a.view a.settings members principal id = .ok d)
    (hagree : ∀ y ∈ d.consulted, a.view.AgreeOn a'.view y) :
    Discovery.derive a'.view a'.settings members' principal id = .ok d := by
  obtain ⟨e, he, hof⟩ := Discovery.derive_eq_ok_iff.mp hd
  obtain ⟨incidents, hbase, hincidents, hinputs⟩ := Derivation.of_eq_ok_iff.mp hof
  have hconsulted := fun y => Derivation.mem_consulted_baseOf (x := y) hbase
  have hid := hagree id ((hconsulted id).mpr (.inl rfl))
  have hbase' : Derivation.baseOf a'.view members' principal id e = .ok (d.base, d.consulted) := by
    cases principal with
    | superuser => exact hbase
    | anonymous => exact hbase
    | user user =>
      by_cases ho : e.owner = some user
      · rw [Derivation.baseOf_of_owner ho] at hbase ⊢
        exact hbase
      · have hmember : ∀ m ∈ members, m.id ∈ d.consulted := fun m hmem =>
          (hconsulted m.id).mpr (.inr ⟨user, rfl, .inr ⟨ho, m, hmem, rfl⟩⟩)
        have hclosure := Membership.closure_of_agree hrules (members_user hm) fun m hmem =>
          (hagree m.id (hmember m hmem)).incidents
        rw [hsettings, members_user hm'] at hclosure
        injection hclosure with hclosure
        rw [Derivation.baseOf_of_not_owner ho] at hbase ⊢
        rw [hclosure, ← inherited_congr hid.granted]
        exact hbase
  refine Discovery.derive_eq_ok_iff.mpr ⟨e, hid.entity ▸ he, Derivation.of_eq_ok_iff.mpr
    ⟨incidents, hbase', hid.incidents ▸ hincidents, ?_⟩⟩
  rw [hinputs, hsettings, hrules]

theorem exists_members_of_entries (h : (a.derivations principal).entries id = some e) :
    ∃ members, a.members principal = .ok members :=
  exists_members_of_mem (isComplete_of_entries h).mem

theorem getElem?_derivations_of_agree (hrules : a.view.rules = a'.view.rules)
    (hsettings : a.settings = a'.settings) (hm' : a'.members principal = .ok members')
    (h : (a.derivations principal).entries id = some e)
    (hagree : ∀ y ∈ e.dependsOn, a.view.AgreeOn a'.view y) :
    ∀ y, (a.derivations principal).Reaches id y →
      (a'.derivations principal)[y]? = (a.derivations principal)[y]? := by
  intro y hy
  obtain ⟨members, hm⟩ := exists_members_of_entries h
  obtain ⟨d, hd⟩ := mem_iff_getElem?.mp (isComplete_of_entries h y hy)
  have hderive := (isTableOf_derivations hm y d).mp hd
  rw [hd]
  exact (isTableOf_derivations hm' y d).mpr (derive_of_agree hrules hsettings hm hm' hderive
    fun z hz => hagree z (consulted_subset h hy hd z hz))

/-- An entry is right in every graph that agrees on what it rests on. -/
theorem entries_of_agree (hrules : a.view.rules = a'.view.rules)
    (hsettings : a.settings = a'.settings) (hm' : a'.members principal = .ok members')
    (h : (a.derivations principal).entries id = some e)
    (hagree : ∀ y ∈ e.dependsOn, a.view.AgreeOn a'.view y) :
    (a'.derivations principal).entries id = some e := by
  rw [entries_congr (isComplete_of_entries h)
    (getElem?_derivations_of_agree hrules hsettings hm' h hagree)]
  exact h

theorem tied_of_agree (hrules : a.view.rules = a'.view.rules)
    (hsettings : a.settings = a'.settings) (hm' : a'.members principal = .ok members')
    (h : (a.derivations principal).entries id = some e)
    (hagree : ∀ y ∈ e.dependsOn, a.view.AgreeOn a'.view y) :
    (a'.derivations principal).Tied id x ↔ (a.derivations principal).Tied id x :=
  tied_congr (getElem?_derivations_of_agree hrules hsettings hm' h hagree)

end Access
end PermissionGraph
