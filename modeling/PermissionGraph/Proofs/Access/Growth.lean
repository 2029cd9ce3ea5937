import PermissionGraph.Proofs.Access.Carried

/-!
# PermissionGraph.Proofs.Access.Growth

Permissions in a graph that gains relationships, under rules that take nothing away. Every input of
an entity stays, so what is held can only be lost where a base is: `leExcept_entries` compares two
tables of derivations, the second with more inputs. A base loses a kind only when the kind is
bypassed (`Membership.Bypassed`), so that is all that can be lost (`entries_of_extends`).
-/

namespace PermissionGraph

open Std Derivations

variable {ε : Type}

/-! ## Sets compared but for some kinds -/

namespace PermissionSet

variable {a b c s t : PermissionSet} {lost more : Permission → Prop}

/-- A set contains all of another but kinds that are lost. -/
structure LeExcept (s t : PermissionSet) (lost : Permission → Prop) : Prop where
  /-- Bits that stand for no kind are not lost. -/
  bits : s ≤ t ∪ .full
  kinds : ∀ k, s.holds k = true → t.holds k = true ∨ lost k

theorem LeExcept.of_le (h : s ≤ t) : s.LeExcept t lost :=
  ⟨le_trans h (le_union_left t full), fun _ hk => .inl (holds_of_le h hk)⟩

theorem LeExcept.le (h : s.LeExcept t lost) (hnone : ∀ k, ¬ lost k) : s ≤ t :=
  le_of_le_union_full h.bits (le_refl t) fun k hk => (h.kinds k hk).resolve_right (hnone k)

theorem LeExcept.mono (h : s.LeExcept t lost) (ht : t ≤ c) (hlost : ∀ k, lost k → more k) :
    s.LeExcept c more where
  bits := le_trans h.bits (union_le_iff.mpr
    ⟨le_trans ht (le_union_left c full), le_union_right c full⟩)
  kinds k hk := (h.kinds k hk).imp (holds_of_le ht) (hlost k)

theorem LeExcept.union_left (a : PermissionSet) (h : s.LeExcept t lost) :
    (a ∪ s).LeExcept (a ∪ t) lost where
  bits := by
    have ht : t ∪ full ≤ a ∪ t ∪ full := union_le_iff.mpr
      ⟨le_trans (le_union_right a t) (le_union_left _ _), le_union_right _ _⟩
    exact union_le_iff.mpr
      ⟨le_trans (le_union_left a t) (le_union_left _ _), le_trans h.bits ht⟩
  kinds k hk := by
    rw [holds_union, Bool.or_eq_true] at hk ⊢
    rcases hk with hk | hk
    · exact .inl (.inl hk)
    · exact (h.kinds k hk).imp_left .inr

open Classical in
/-- The kinds that are lost, as a list. -/
noncomputable def kindsOf (lost : Permission → Prop) : List Permission :=
  Permission.all.filter fun k => decide (lost k)

/-- Every bit, also those that stand for no kind. -/
def every : PermissionSet := ⟨BitVec.allOnes 8⟩

theorem le_every (s : PermissionSet) : s ≤ every := by
  rw [le_iff]
  intro i hi _
  rw [every, BitVec.getLsbD_allOnes]
  exact decide_eq_true hi

theorem mem_kindsOf {k : Permission} : k ∈ kindsOf lost ↔ lost k := by
  simp [kindsOf, Permission.mem_all]

theorem holds_union_kindsOf {k : Permission} :
    (t ∪ ofList (kindsOf lost)).holds k = true ↔ t.holds k = true ∨ lost k := by
  rw [holds_union, holds_ofList, Bool.or_eq_true, decide_eq_true_eq, mem_kindsOf]

theorem leExcept_iff : s.LeExcept t lost ↔ s ≤ t ∪ ofList (kindsOf lost) := by
  constructor
  · intro h
    refine le_of_le_union_full h.bits (le_union_left _ _) fun k hk => ?_
    exact holds_union_kindsOf.mpr (h.kinds k hk)
  · intro h
    refine ⟨le_trans h (union_le_iff.mpr ⟨le_union_left _ _, ?_⟩), fun k hk => ?_⟩
    · exact le_trans (ofList_le_full _) (le_union_right _ _)
    · exact holds_union_kindsOf.mp (holds_of_le h hk)

end PermissionSet

/-! ## Tables of derivations -/

namespace Input

variable {i : Input} {f g : EntityId → PermissionSet} {k : Permission} {P : EntityId → Prop}

/-- An input over which a kind can be added. -/
def Passes (k : Permission) : Input → Prop
  | propagated _ rule => rule.effect k = .add
  | endpoints .. => k = .read

theorem passes_of_gives (hk : i.gives f k = true) : i.Passes k := by
  cases i with
  | propagated other rule =>
    rw [gives, Bool.and_eq_true, beq_iff_eq] at hk
    exact hk.1
  | endpoints source target =>
    rw [gives, Bool.and_eq_true, beq_iff_eq] at hk
    exact hk.1

theorem gives_or (h : ∀ o ∈ i.origins, (f o).holds k = true → (g o).holds k = true ∨ P o)
    (hk : i.gives f k = true) : i.gives g k = true ∨ ∃ o ∈ i.origins, P o := by
  by_cases hall : ∀ o ∈ i.origins, (g o).holds k = true
  · exact .inl (gives_of_imp (fun o ho _ => hall o ho) hk)
  · push Not at hall
    obtain ⟨o, ho, hnot⟩ := hall
    exact .inr ⟨o, ho, (h o ho (holds_of_gives hk o ho)).resolve_left hnot⟩

end Input

/-- A derivation has all inputs of another, but for reading over endpoints where the base allows
reading already; its base is no less but for kinds that are lost. -/
structure Derivation.Keeps (d' d : Derivation) (lost : Permission → Prop) : Prop where
  base : d.base.LeExcept d'.base lost
  inputs : ∀ i ∈ d.inputs, i ∈ d'.inputs ∨
    (∃ source target, i = .endpoints source target) ∧ d'.base.holds .read = true

namespace Derivations

variable {D D' : Derivations} {root id x : EntityId} {k : Permission}
  {lost : EntityId → Permission → Prop}

/-- A kind passes from one entity to another over an input that can add it. -/
def PassesOn (D : Derivations) (k : Permission) (o id : EntityId) : Prop :=
  ∃ d i, D[id]? = some d ∧ i ∈ d.inputs ∧ i.Passes k ∧ o ∈ i.origins

/-- A kind is lost on an entity itself, or on one that it passes on from. -/
def Loses (D : Derivations) (lost : EntityId → Permission → Prop) (id : EntityId) (k : Permission) :
    Prop :=
  ∃ f, Relation.ReflTransGen (D.PassesOn k) f id ∧ lost f k

theorem Loses.of_lost (h : lost id k) : D.Loses lost id k := ⟨id, .refl, h⟩

theorem Loses.passesOn {o : EntityId} (h : D.Loses lost o k) (hp : D.PassesOn k o id) :
    D.Loses lost id k := by
  obtain ⟨f, hf, hlost⟩ := h
  exact ⟨f, hf.tail hp, hlost⟩

theorem IsComplete.of_mem_inputs {d : Derivation} {i : Input} {o : EntityId} (h : D.IsComplete id)
    (hd : D[id]? = some d) (hi : i ∈ d.inputs) (ho : o ∈ i.origins) : D.IsComplete o :=
  h.of_reaches (Draws.reaches ⟨d, hd, Derivation.mem_origins.mpr ⟨i, hi, ho⟩⟩)

open Classical in
/-- What a table says of what is complete in it, with all that is lost added; everything of any
other entity. -/
noncomputable def padded (D' D : Derivations) (lost : EntityId → Permission → Prop)
    (x : EntityId) : PermissionSet :=
  if D'.IsComplete x then
    D'.entries.permissions x ∪ .ofList (PermissionSet.kindsOf (D.Loses lost x))
  else .every

theorem padded_eq (h : D'.IsComplete x) : D'.padded D lost x =
    D'.entries.permissions x ∪ .ofList (PermissionSet.kindsOf (D.Loses lost x)) := if_pos h

/-- What is held in a table, but for what is lost, is held in a table that keeps its derivations:
what that one says, padded, is lowered by a round of the first. What the first reaches and the
second does not, because a base allows reading already, may not be complete there. -/
theorem leExcept_entries (hD : D.Adds) (hD' : D'.Adds) (h : D.IsComplete root)
    (h' : D'.IsComplete root)
    (hkeeps : ∀ (x : EntityId) (d d' : Derivation), D[x]? = some d → D'[x]? = some d' →
      d'.Keeps d (lost x)) :
    (D.entries.permissions root).LeExcept (D'.entries.permissions root) (D.Loses lost root) := by
  rw [PermissionSet.leExcept_iff, ← padded_eq h']
  refine permissions_entries_le_of_gain_le hD h (fun x d _ hd => ?_) .refl
  by_cases hc' : D'.IsComplete x
  · obtain ⟨d', hd'⟩ := mem_iff_getElem?.mp hc'.mem
    have hkeep := hkeeps x d d' hd hd'
    have hbase' : d'.base ≤ D'.entries.permissions x := by
      rw [permissions_entries_eq_gain hD' hc' hd']
      exact Derivation.base_le_gain
    rw [padded_eq hc']
    refine Derivation.gain_le_iff.mpr ⟨?_, ?_⟩
    · exact PermissionSet.leExcept_iff.mp (hkeep.base.mono hbase' fun k hk => Loses.of_lost hk)
    · rintro k ⟨i, hi, hgives⟩
      rw [PermissionSet.holds_union_kindsOf]
      have hpasses := Input.passes_of_gives hgives
      rcases hkeep.inputs i hi with hi' | ⟨⟨source, target, rfl⟩, hread⟩
      · have hor : ∀ o ∈ i.origins, (D'.padded D lost o).holds k = true →
            (D'.entries.permissions o).holds k = true ∨ D.Loses lost o k := by
          intro o ho hk
          rwa [padded_eq (hc'.of_mem_inputs hd' hi' ho), PermissionSet.holds_union_kindsOf] at hk
        rcases Input.gives_or hor hgives with hgives' | ⟨o, ho, hlost⟩
        · exact .inl (holds_of_gives hD' hc' hd' hi' hgives')
        · exact .inr (hlost.passesOn ⟨d, i, hd, hi, hpasses, ho⟩)
      · rw [show k = .read from hpasses]
        exact .inl (PermissionSet.holds_of_le hbase' hread)
  · rw [padded, if_neg hc']
    exact PermissionSet.le_every _

end Derivations

/-! ## Graphs that gain relationships -/

namespace Access

variable {a a' : Access ε} {principal : Principal} {id : EntityId} {members members' : List Member}
  {e : Entity} {d d' : Derivation}

/-- A kind on an entity is bypassed for a principal that stands in the graph. -/
def Bypassed (a a' : Access ε) (principal : Principal) (entity : EntityId) (k : Permission) :
    Prop :=
  ∃ user, principal = .user user ∧ Membership.Bypassed a.view a'.view a.settings user k entity

theorem isSuperuser_user_of_mem {user : EntityId} (h : user ∈ a.settings.superusers) :
    a.isSuperuser (.user user) = .ok true := if_pos h

theorem isSuperuser_user_eq_ok_iff {user : EntityId} {b : Bool}
    (h : user ∉ a.settings.superusers) : a.isSuperuser (.user user) = .ok b ↔
      ∃ e, a.view.entity? user = .ok (some e) ∧ e.isAdmin = b := by
  rw [isSuperuser, if_neg h, entity]
  cases a.view.entity? user with
  | error cause => simp
  | ok found => cases found <;> simp

/-- A derivation is kept in a graph with no fewer relationships at the entity, if the base is. -/
theorem keeps_of_base {principal' : Principal} {lost : Permission → Prop}
    (hd : (a.derivations principal)[id]? = some d)
    (hd' : (a'.derivations principal')[id]? = some d')
    (hrules : a'.view.rules = a.view.rules) (hsettings : a'.settings = a.settings)
    (hentity : ∀ e e', a.view.entity? id = .ok (some e) → a'.view.entity? id = .ok (some e') →
      e'.endpoints? = e.endpoints?)
    (hincidents : ∀ l l', a.view.incidents id = .ok l → a'.view.incidents id = .ok l' →
      ∀ i ∈ l, i ∈ l')
    (hbase : ∀ members members' e e' s s', a.members principal = .ok members →
      a'.members principal' = .ok members' → a.view.entity? id = .ok (some e) →
      a'.view.entity? id = .ok (some e') →
      Derivation.baseOf a.view members principal id e = .ok s →
      Derivation.baseOf a'.view members' principal' id e' = .ok s' → s.1.LeExcept s'.1 lost) :
    d'.Keeps d lost := by
  obtain ⟨members, e, hm, he, hof⟩ := exists_of_getElem?_derivations hd
  obtain ⟨members', e', hm', he', hof'⟩ := exists_of_getElem?_derivations hd'
  obtain ⟨l, hb, hl, hinputs⟩ := Derivation.of_eq_ok_iff.mp hof
  obtain ⟨l', hb', hl', hinputs'⟩ := Derivation.of_eq_ok_iff.mp hof'
  refine ⟨hbase members members' e e' _ _ hm hm' he he' hb hb', fun i hi => ?_⟩
  rw [hinputs, List.mem_append, Derivation.mem_endpointInputs,
    Derivation.mem_propagatedInputs] at hi
  rw [hinputs', List.mem_append, Derivation.mem_endpointInputs, Derivation.mem_propagatedInputs,
    hrules, hsettings, hentity e e' he he']
  rcases hi with ⟨hreadable, _, source, target, hends, rfl⟩ | ⟨incident, hmem, hadmits, rfl⟩
  · cases hread : d'.base.holds .read with
    | true => exact .inr ⟨⟨source, target, rfl⟩, rfl⟩
    | false => exact .inl (.inl ⟨hreadable, rfl, source, target, hends, rfl⟩)
  · exact .inl (.inr ⟨incident, hincidents l l' hl hl' incident hmem, hadmits, rfl⟩)

section Extends

variable (hext : a'.view.Extends a.view) (hsettings : a'.settings = a.settings)
  (hrules : a.view.rules.RemovesNothing)
include hext hsettings hrules

theorem inherited_leExcept {user : EntityId} {s s' : PermissionSet}
    (hc : Membership.closure a.view a.settings user = .ok members)
    (hc' : Membership.closure a'.view a'.settings user = .ok members')
    (h : Membership.inherited a.view members user id = .ok s)
    (h' : Membership.inherited a'.view members' user id = .ok s') :
    s.LeExcept s' (a.Bypassed a' (.user user) id) := by
  have hrules' : a'.view.rules.RemovesNothing := by rwa [hext.rules]
  have hhops : Membership.HopsRemoveNothing a.view a.settings :=
    Membership.hopsRemoveNothing hrules
  have hhops' : Membership.HopsRemoveNothing a'.view a.settings :=
    Membership.hopsRemoveNothing hrules'
  rw [hsettings] at hc'
  obtain ⟨X, hX, rfl⟩ := Membership.inherited_spec hc h
  obtain ⟨X', hX', rfl⟩ := Membership.inherited_spec hc' h'
  constructor
  · obtain ⟨granted, hgranted, _, hle⟩ := hX.own hhops
    obtain ⟨granted', hgranted', hle', _⟩ := hX'.own hhops'
    rw [hext.granted, hgranted] at hgranted'
    injection hgranted' with hgranted'
    rw [← hgranted'] at hle'
    exact PermissionSet.le_trans hle (PermissionSet.union_le_iff.mpr
      ⟨PermissionSet.le_trans hle' (PermissionSet.le_union_left _ _),
        PermissionSet.le_union_right _ _⟩)
  · intro k hk
    rw [hX'.holds_iff hhops']
    exact (((hX.holds_iff hhops).mp hk).of_extends hext).imp_right fun hb => ⟨user, rfl, hb⟩

theorem baseOf_leExcept (hm : a.members principal = .ok members)
    (hm' : a'.members principal = .ok members') {s s' : PermissionSet × EntitySet}
    (h : Derivation.baseOf a.view members principal id e = .ok s)
    (h' : Derivation.baseOf a'.view members' principal id e = .ok s') :
    s.1.LeExcept s'.1 (a.Bypassed a' principal id) := by
  have hsame : ∀ {r : Except ε (PermissionSet × EntitySet)}, r = .ok s → r = .ok s' →
      s.1.LeExcept s'.1 (a.Bypassed a' principal id) := by
    intro r hr hr'
    have heq := hr.symm.trans hr'
    injection heq with heq
    rw [heq]
    exact .of_le (PermissionSet.le_refl _)
  cases principal with
  | superuser => exact hsame h h'
  | anonymous => exact hsame h h'
  | user user =>
    by_cases ho : e.owner = some user
    · rw [Derivation.baseOf_of_owner ho] at h h'
      exact hsame h h'
    · obtain ⟨granted, hi, rfl⟩ := (Derivation.baseOf_eq_ok_iff_of_not_owner ho).mp h
      obtain ⟨granted', hi', rfl⟩ := (Derivation.baseOf_eq_ok_iff_of_not_owner ho).mp h'
      have hle := inherited_leExcept hext hsettings hrules (members_user hm) (members_user hm') hi
        hi'
      refine .union_left _ hle

omit hrules in
theorem isSuperuser_of_extends {exempt : Bool} (h : a.isSuperuser principal = .ok exempt) :
    a'.isSuperuser principal = .ok exempt := by
  cases principal with
  | superuser => exact h
  | anonymous => exact h
  | user user =>
    by_cases hlisted : user ∈ a.settings.superusers
    · rw [isSuperuser_user_of_mem hlisted] at h
      rw [isSuperuser_user_of_mem (by rwa [hsettings])]
      exact h
    · obtain ⟨e, he, hadmin⟩ := (isSuperuser_user_eq_ok_iff hlisted).mp h
      rw [isSuperuser_user_eq_ok_iff (by rwa [hsettings])]
      exact ⟨e, hext.entity he, hadmin⟩

/-- Every derivation is kept, but for what is bypassed. -/
theorem keeps_of_extends (hd : (a.derivations principal)[id]? = some d)
    (hd' : (a'.derivations principal)[id]? = some d') :
    d'.Keeps d (a.Bypassed a' principal id) := by
  have hsame : ∀ e e', a.view.entity? id = .ok (some e) → a'.view.entity? id = .ok (some e') →
      e' = e := by
    intro e e' he he'
    rw [hext.entity he] at he'
    injection he' with he'
    injection he' with he'
    exact he'.symm
  refine keeps_of_base hd hd' hext.rules hsettings (fun e e' he he' => ?_) (fun l l' hl hl' => ?_)
    fun members members' e e' s s' hm hm' he he' hb hb' => ?_
  · rw [hsame e e' he he']
  · obtain ⟨found, hfound, hsub⟩ := hext.incidents hl
    rw [hfound] at hl'
    injection hl' with hl'
    rwa [← hl']
  · rw [hsame e e' he he'] at hb'
    exact baseOf_leExcept hext hsettings hrules hm hm' hb hb'

/-- When a graph gains relationships, a principal still holds what it held on an entity, but for
kinds that are bypassed there or on entities from which they pass on to it. -/
theorem entries_of_extends (havailable : a'.view.Available) (hclosed : a'.view.Closed)
    {entry : MemoEntry} (hentry : (a.derivations principal).entries id = some entry) :
    ∃ entry', (a'.derivations principal).entries id = some entry' ∧
      entry.permissions.LeExcept entry'.permissions
        ((a.derivations principal).Loses (a.Bypassed a' principal) id) := by
  have hc := isComplete_of_entries hentry
  obtain ⟨d, hd⟩ := mem_iff_getElem?.mp hc.mem
  obtain ⟨_, e, _, he, _⟩ := exists_of_getElem?_derivations hd
  have hc' : (a'.derivations principal).IsComplete id :=
    isComplete_of_exists havailable fun _ hr => exists_of_reaches hclosed ⟨e, hext.entity he⟩ hr
  obtain ⟨entry', hentry'⟩ := exists_entries hc'
  have hadds' : (a'.derivations principal).Adds := adds_derivations (by rwa [hext.rules])
  have hle := leExcept_entries (adds_derivations hrules) hadds' hc hc'
    fun x d d' hd hd' => keeps_of_extends hext hsettings hrules hd hd'
  rw [Entries.permissions, Entries.permissions, hentry, hentry'] at hle
  exact ⟨entry', hentry', hle⟩

end Extends
end Access
end PermissionGraph
