import PermissionGraph.Proofs.Access.Groups
import PermissionGraph.Proofs.Access.Least
import PermissionGraph.Proofs.Access.Support

/-!
# PermissionGraph.Proofs.Access.Suppression

Taking away only suppresses. A graph is compared with the same graph under rules that keep what
they would take away (`Access.withoutRemovals`). A rule that has nothing but removals does not
propagate there, so entities draw on fewer others, groups can be farther from a user, and
components can be smaller; still nobody holds less (`answer_le_withoutRemovals`).

* `Inherits.le`: a group that is at one distance under both rule books passes on no less, because a
  hop that adds leads one step farther under both.
* `holds_of_supported`: every kind is derived from bases over inputs that add it, whether or not the
  cycle that it is held on becomes stable, and those inputs are there without removals too.
-/

namespace PermissionGraph

open Std Derivations

variable {ε : Type}

/-! ## Rules -/

namespace Effect

/-- What is left of an effect when nothing may be taken away. -/
def withoutRemoval : Effect → Effect
  | keep => keep
  | add => add
  | remove => keep

theorem withoutRemoval_ne_remove (e : Effect) : e.withoutRemoval ≠ remove := by
  cases e <;> decide

theorem withoutRemoval_eq_add_iff {e : Effect} : e.withoutRemoval = add ↔ e = add := by
  cases e <;> decide

theorem withoutRemoval_ne_keep_iff {e : Effect} : e.withoutRemoval ≠ keep ↔ e = add := by
  cases e <;> decide

end Effect

namespace Rule

variable {r : Rule} {direction : Direction} {k : Permission}

def withoutRemovals (r : Rule) : Rule where
  flow := r.flow
  effects :=
    { read := r.effects.read.withoutRemoval
      write := r.effects.write.withoutRemoval
      delete := r.effects.delete.withoutRemoval
      accessControl := r.effects.accessControl.withoutRemoval
      link := r.effects.link.withoutRemoval }

theorem effect_withoutRemovals (r : Rule) (k : Permission) :
    r.withoutRemovals.effect k = (r.effect k).withoutRemoval := by
  cases k <;> rfl

theorem propagates_withoutRemovals_iff : r.withoutRemovals.propagates direction = true ↔
    r.propagates direction = true ∧ ∃ k, r.effect k = .add := by
  simp only [propagates_iff, effect_withoutRemovals, Effect.withoutRemoval_ne_keep_iff]
  constructor
  · rintro ⟨hflow, k, hk⟩
    exact ⟨⟨hflow, k, by rw [hk]; decide⟩, k, hk⟩
  · rintro ⟨⟨hflow, _⟩, hk⟩
    exact ⟨hflow, hk⟩

end Rule

namespace RuleBook

/-- The same rules, for the same names and types, with nothing taken away. -/
def withoutRemovals (rules : RuleBook) : RuleBook where
  byName := rules.byName.map fun _ rule => rule.withoutRemovals
  byType := rules.byType.map fun _ rule => rule.withoutRemovals

theorem ruleFor_withoutRemovals (rules : RuleBook) (type : RelationshipType) :
    rules.withoutRemovals.ruleFor type = (rules.ruleFor type).withoutRemovals := by
  rw [ruleFor, ruleFor]
  simp only [withoutRemovals, ExtTreeMap.getElem?_map, ExtTreeMap.getD_eq_getD_getElem?]
  cases rules.byType[type]? with
  | some rule => rfl
  | none => cases rules.byName[type.name]? <;> rfl

theorem removesNothing_withoutRemovals (rules : RuleBook) :
    rules.withoutRemovals.RemovesNothing where
  byName name rule h k := by
    rw [withoutRemovals, ExtTreeMap.getElem?_map] at h
    obtain ⟨found, _, rfl⟩ := Option.map_eq_some_iff.mp h
    rw [Rule.effect_withoutRemovals]
    exact Effect.withoutRemoval_ne_remove _
  byType type rule h k := by
    rw [withoutRemovals, ExtTreeMap.getElem?_map] at h
    obtain ⟨found, _, rfl⟩ := Option.map_eq_some_iff.mp h
    rw [Rule.effect_withoutRemovals]
    exact Effect.withoutRemoval_ne_remove _

end RuleBook

namespace Membership

theorem admits_withoutRemovals_iff {rules : RuleBook} {i : Incident} :
    admits rules.withoutRemovals i = true ↔
      admits rules i = true ∧ ∃ k, (rules.ruleFor i.relationshipType).effect k = .add := by
  rw [admits, RuleBook.ruleFor_withoutRemovals, Rule.propagates_withoutRemovals_iff]
  rfl

end Membership

/-! ## Groups -/

/-- The same graph under rules that take nothing away. -/
def GraphView.withoutRemovals (view : GraphView ε) : GraphView ε :=
  { view with rules := view.rules.withoutRemovals }

namespace Membership

variable {view : GraphView ε} {settings : Settings} {user entity member x : EntityId}
  {members members' : List Member} {hop : Hop} {n : Nat}

theorem takes_withoutRemovals_iff : Takes view.withoutRemovals settings member hop ↔
    ∃ old, Takes view settings member old ∧ (∃ k, old.rule.effect k = .add) ∧
      hop = ⟨old.group, old.rule.withoutRemovals⟩ := by
  simp only [takes_iff_exists_incident]
  constructor
  · rintro ⟨incidents, hincidents, i, hi, hname, hadmits, rfl⟩
    obtain ⟨hold, hadds⟩ := admits_withoutRemovals_iff.mp hadmits
    refine ⟨_, ⟨incidents, hincidents, i, hi, hname, hold, rfl⟩, hadds, ?_⟩
    rw [← RuleBook.ruleFor_withoutRemovals]
    rfl
  · rintro ⟨_, ⟨incidents, hincidents, i, hi, hname, hadmits, rfl⟩, hadds, rfl⟩
    refine ⟨incidents, hincidents, i, hi, hname,
      admits_withoutRemovals_iff.mpr ⟨hadmits, hadds⟩, ?_⟩
    rw [← RuleBook.ruleFor_withoutRemovals]
    rfl

/-- Without removals fewer hops are taken, so nothing gets nearer. -/
theorem within_of_withoutRemovals
    (h : Within (LeadsTo view.withoutRemovals settings) user n x) :
    Within (LeadsTo view settings) user n x := by
  refine h.of_imp fun y z hyz => ?_
  obtain ⟨hop, htakes, rfl⟩ := hyz
  obtain ⟨old, hold, _, rfl⟩ := takes_withoutRemovals_iff.mp htakes
  exact ⟨old, hold, rfl⟩

theorem combine_le_union_full (granted : PermissionSet) (hops : List Hop)
    (held : EntityId → PermissionSet) : combine granted hops held ≤ granted ∪ .full := by
  refine PermissionSet.le_trans (PermissionSet.sdiff_le _ _)
    (PermissionSet.union_le_iff.mpr ⟨PermissionSet.le_union_left _ _, ?_⟩)
  refine PermissionSet.sum_le_iff.mpr fun s hs => ?_
  obtain ⟨hop, _, rfl⟩ := List.mem_map.mp hs
  exact PermissionSet.le_trans (hop.rule.added_le_full _) (PermissionSet.le_union_right _ _)

theorem combine_of_adds {granted : PermissionSet} {hops : List Hop}
    {held : EntityId → PermissionSet} (h : ∀ hop ∈ hops, ∀ k, hop.rule.effect k ≠ .remove) :
    combine granted hops held =
      granted ∪ .sum (hops.map fun hop => hop.rule.added (held hop.group)) := by
  have hremoved :
      PermissionSet.sum (hops.map fun hop => hop.rule.removed (held hop.group)) = ∅ := by
    refine PermissionSet.sum_eq_empty fun s hs => ?_
    obtain ⟨hop, hhop, rfl⟩ := List.mem_map.mp hs
    exact hop.rule.removed_of_adds (h hop hhop) _
  rw [combine, hremoved, PermissionSet.sdiff_empty]

variable {X X' : EntityId → PermissionSet}

theorem Inherits.le_step (h : Inherits view settings user entity X)
    (h' : Inherits view.withoutRemovals settings user entity X')
    (hn : n ≤ settings.maxGroupDepth) (hx : At view settings user n x)
    (hx' : At view.withoutRemovals settings user n x)
    (ih : n < settings.maxGroupDepth → ∀ y, At view settings user (n + 1) y →
      At view.withoutRemovals settings user (n + 1) y → X y ≤ X' y) :
    X x ≤ X' x := by
  obtain ⟨granted, hops, hgranted, hX, hmem⟩ := h n x hn hx
  obtain ⟨granted', hops', hgranted', hX', hmem'⟩ := h' n x hn hx'
  have hsame := hgranted.symm.trans hgranted'
  injection hsame with hsame
  subst hsame
  have hadds : ∀ hop ∈ hops', ∀ k, hop.rule.effect k ≠ .remove := by
    intro hop hhop k
    obtain ⟨old, _, _, rfl⟩ := takes_withoutRemovals_iff.mp ((hmem' hop).mp hhop).2.1
    rw [Rule.effect_withoutRemovals]
    exact Effect.withoutRemoval_ne_remove _
  rw [combine_of_adds hadds] at hX'
  have hbase : granted ≤ X' x := by
    rw [hX']
    exact PermissionSet.le_union_left _ _
  have hfull : X x ≤ granted ∪ .full := by
    rw [hX]
    exact combine_le_union_full _ _ _
  refine PermissionSet.le_of_le_union_full hfull hbase fun k hk => ?_
  rw [hX, holds_combine, Bool.and_eq_true, Bool.or_eq_true, List.any_eq_true] at hk
  obtain ⟨hk | ⟨hop, hhop, hk⟩, _⟩ := hk
  · exact PermissionSet.holds_of_le hbase hk
  · rw [Bool.and_eq_true, beq_iff_eq] at hk
    obtain ⟨hlt, htakes, hat⟩ := (hmem hop).mp hhop
    -- the hop adds a kind, so it is there without removals; and since nothing got nearer by leaving
    -- them out, it leads one hop farther there too
    have htakes' : Takes view.withoutRemovals settings x ⟨hop.group, hop.rule.withoutRemovals⟩ :=
      takes_withoutRemovals_iff.mpr ⟨hop, htakes, ⟨k, hk.2⟩, rfl⟩
    have hat' : At view.withoutRemovals settings user (n + 1) hop.group :=
      (hx'.step ⟨_, htakes', rfl⟩).mpr fun hwithin =>
        (hx.step ⟨hop, htakes, rfl⟩).mp hat (within_of_withoutRemovals hwithin)
    have hgroup := PermissionSet.holds_of_le (ih hlt hop.group hat hat') hk.1
    rw [hX', PermissionSet.holds_union, PermissionSet.holds_sum, List.any_map, Bool.or_eq_true,
      List.any_eq_true]
    refine .inr ⟨_, (hmem' _).mpr ⟨hlt, htakes', hat'⟩, ?_⟩
    show (hop.rule.withoutRemovals.added (X' hop.group)).holds k = true
    rw [Rule.holds_added, Rule.effect_withoutRemovals, hgroup, hk.2]
    rfl

/-- By induction on how many hops are left to the greatest depth. -/
theorem Inherits.le (h : Inherits view settings user entity X)
    (h' : Inherits view.withoutRemovals settings user entity X')
    (hn : n ≤ settings.maxGroupDepth) (hx : At view settings user n x)
    (hx' : At view.withoutRemovals settings user n x) : X x ≤ X' x := by
  obtain ⟨d, hd⟩ := Nat.exists_eq_add_of_le hn
  induction d generalizing n x with
  | zero => exact h.le_step h' hn hx hx' fun hlt => by omega
  | succ d ih =>
    exact h.le_step h' hn hx hx' fun hlt y hy hy' => ih hlt hy hy' (by omega)

theorem inherited_le {s s' : PermissionSet} (hc : closure view settings user = .ok members)
    (hc' : closure view.withoutRemovals settings user = .ok members')
    (h : inherited view members user entity = .ok s)
    (h' : inherited view.withoutRemovals members' user entity = .ok s') : s ≤ s' := by
  obtain ⟨X, hX, rfl⟩ := inherited_spec hc h
  obtain ⟨X', hX', rfl⟩ := inherited_spec hc' h'
  exact hX.le hX' (Nat.zero_le _) (atDistance_zero_iff.mpr rfl) (atDistance_zero_iff.mpr rfl)

end Membership

/-! ## Derivations -/

/-- A derivation has all that another adds: no less of a base, the inputs that add a kind, and the
input over endpoints unless the base holds reading already. -/
structure Derivation.Offers (d d' : Derivation) : Prop where
  base : d.base ≤ d'.base
  propagated : ∀ {other : EntityId} {rule : Rule} {k : Permission},
    .propagated other rule ∈ d.inputs → rule.effect k = .add →
      ∃ rule' : Rule, rule'.effect k = .add ∧ .propagated other rule' ∈ d'.inputs
  endpoints : ∀ {source target : EntityId}, .endpoints source target ∈ d.inputs →
    d'.base.holds .read = true ∨ .endpoints source target ∈ d'.inputs

namespace Derivations

variable {D D' members : Derivations} {X : EntityId → PermissionSet} {k : Permission}
  {id : EntityId} {d : Derivation}

theorem holds_of_gives (hD : D.Adds) (h : D.IsComplete id) (hd : D[id]? = some d) {i : Input}
    (hi : i ∈ d.inputs) (hk : i.gives D.entries.permissions k = true) :
    (D.entries.permissions id).holds k = true := by
  rw [permissions_entries_eq_gain hD h hd, Derivation.holds_gain, Bool.or_eq_true, List.any_eq_true]
  exact .inr ⟨i, hi, hk⟩

theorem holds_of_base (hD : D.Adds) (h : D.IsComplete id) (hd : D[id]? = some d)
    (hk : d.base.holds k = true) : (D.entries.permissions id).holds k = true := by
  rw [permissions_entries_eq_gain hD h hd]
  exact PermissionSet.holds_of_le Derivation.base_le_gain hk

/-- A kind that has a derivation in one table is held according to another in which nothing is taken
away, if that one offers all that the first adds. -/
theorem holds_of_supported {l : List EntityId} (hadds : D'.Adds)
    (hoffers : ∀ {id : EntityId} {d d' : Derivation}, D[id]? = some d → D'[id]? = some d' →
      d.Offers d')
    (h : D.Supported X k l id) (hc : D'.IsComplete id) :
    (D'.entries.permissions id).holds k = true := by
  have horigin : ∀ {id o : EntityId} {d' : Derivation} {i : Input}, D'.IsComplete id →
      D'[id]? = some d' → i ∈ d'.inputs → o ∈ i.origins → D'.IsComplete o :=
    fun hc hd' hi ho =>
      hc.of_reaches (Draws.reaches ⟨_, hd', Derivation.mem_origins.mpr ⟨_, hi, ho⟩⟩)
  induction h with
  | base hd hbase =>
    obtain ⟨d', hd'⟩ := mem_iff_getElem?.mp hc.mem
    exact holds_of_base hadds hc hd' (PermissionSet.holds_of_le (hoffers hd hd').base hbase)
  | @propagated id other d rule l hd hi hrule _ _ ih =>
    obtain ⟨d', hd'⟩ := mem_iff_getElem?.mp hc.mem
    obtain ⟨rule', hrule', hi'⟩ := (hoffers hd hd').propagated hi hrule
    have hother := ih (horigin hc hd' hi' (List.mem_singleton_self other))
    refine holds_of_gives hadds hc hd' hi' ?_
    rw [Input.gives, hrule', hother]
    rfl
  | @endpoints id source target d l l' hd hi hread _ _ _ _ ih ih' =>
    obtain ⟨d', hd'⟩ := mem_iff_getElem?.mp hc.mem
    subst hread
    rcases (hoffers hd hd').endpoints hi with hbase | hi'
    · exact holds_of_base hadds hc hd' hbase
    · have hsource := ih (horigin hc hd' hi' (by simp [Input.origins]))
      have htarget := ih' (horigin hc hd' hi' (by simp [Input.origins]))
      refine holds_of_gives hadds hc hd' hi' ?_
      rw [Input.gives, hsource, htarget]
      rfl

end Derivations

theorem Derivation.combine_le_union_full (d : Derivation) (held : EntityId → PermissionSet) :
    d.combine held ≤ d.base ∪ .full := by
  refine PermissionSet.le_trans (PermissionSet.sdiff_le _ _)
    (PermissionSet.union_le_iff.mpr ⟨PermissionSet.le_union_left _ _, ?_⟩)
  refine PermissionSet.sum_le_iff.mpr fun s hs => ?_
  obtain ⟨i, _, rfl⟩ := List.mem_map.mp hs
  exact PermissionSet.le_trans (i.added_le_full held) (PermissionSet.le_union_right _ _)

namespace Settling

variable {members : Derivations} {outside : EntityId → PermissionSet} {id : EntityId}
  {d : Derivation} {n : Nat}

theorem held_after_le_union_full (hd : members[id]? = some d) :
    held outside (after members outside n) id ≤ d.base ∪ .full := by
  cases n with
  | zero =>
    rw [after, Function.iterate_zero, id_eq, held_bases hd]
    exact PermissionSet.le_union_left _ _
  | succ n =>
    rw [after_succ, held_round hd]
    exact d.combine_le_union_full _

/-- Whichever way a component ends, a member holds its base, but for kinds. -/
theorem held_settle_le_union_full (hd : members[id]? = some d) :
    held outside (settle members outside) id ≤ d.base ∪ .full := by
  obtain ⟨N, hN⟩ := exists_held_settle members outside
  rw [hN id d hd, withoutChanging, PermissionSet.union_le_iff]
  constructor
  · exact PermissionSet.le_trans (PermissionSet.sdiff_le _ _) (held_after_le_union_full hd)
  · exact PermissionSet.le_trans (PermissionSet.inter_le_left _ _) (PermissionSet.le_union_left _ _)

end Settling

theorem Derivations.permissions_entries_le_union_full {D : Derivations} {id : EntityId}
    {d : Derivation} (h : D.IsComplete id) (hd : D[id]? = some d) :
    D.entries.permissions id ≤ d.base ∪ .full := by
  obtain ⟨members, hc, hin, hall⟩ := h.exists_component
  rw [← held_settle hc hall]
  exact Settling.held_settle_le_union_full ((hc.getElem?_eq hin).trans hd)

/-! ## Answers -/

namespace Access

variable {a : Access ε} {principal : Principal} {id : EntityId} {members members' : List Member}
  {e : Entity} {d d' : Derivation}

/-- The same graph under rules that take nothing away. -/
def withoutRemovals (a : Access ε) : Access ε := { a with view := a.view.withoutRemovals }

theorem isSuperuser_withoutRemovals (a : Access ε) (principal : Principal) :
    a.withoutRemovals.isSuperuser principal = a.isSuperuser principal := by
  cases principal <;> rfl

theorem baseOf_le (hm : a.members principal = .ok members)
    (hm' : a.withoutRemovals.members principal = .ok members') {s s' : PermissionSet × EntitySet}
    (h : Derivation.baseOf a.view members principal id e = .ok s)
    (h' : Derivation.baseOf a.withoutRemovals.view members' principal id e = .ok s') :
    s.1 ≤ s'.1 := by
  have hsame : ∀ {r : Except ε (PermissionSet × EntitySet)}, r = .ok s → r = .ok s' →
      s.1 ≤ s'.1 := by
    intro r hr hr'
    have heq := hr.symm.trans hr'
    injection heq with heq
    rw [heq]
    exact PermissionSet.le_refl _
  cases principal with
  | superuser => exact hsame h h'
  | anonymous => exact hsame h h'
  | user user =>
    by_cases ho : e.owner = some user
    · rw [Derivation.baseOf_of_owner ho] at h h'
      exact hsame h h'
    · obtain ⟨granted, hi, hs⟩ := (Derivation.baseOf_eq_ok_iff_of_not_owner ho).mp h
      obtain ⟨granted', hi', hs'⟩ := (Derivation.baseOf_eq_ok_iff_of_not_owner ho).mp h'
      have hle := Membership.inherited_le (members_user hm) (members_user hm') hi hi'
      rw [hs, hs', PermissionSet.union_le_iff]
      exact ⟨PermissionSet.le_union_left _ _,
        PermissionSet.le_trans hle (PermissionSet.le_union_right _ _)⟩

theorem offers_withoutRemovals (hd : (a.derivations principal)[id]? = some d)
    (hd' : (a.withoutRemovals.derivations principal)[id]? = some d') : d.Offers d' := by
  obtain ⟨members, e, hm, he, hof⟩ := exists_of_getElem?_derivations hd
  obtain ⟨members', e', hm', he', hof'⟩ := exists_of_getElem?_derivations hd'
  have hee : some e = some e' := Except.ok.inj (he.symm.trans he')
  injection hee with hee
  subst hee
  obtain ⟨incidents, hbase, hincidents, hinputs⟩ := Derivation.of_eq_ok_iff.mp hof
  obtain ⟨incidents', hbase', hincidents', hinputs'⟩ := Derivation.of_eq_ok_iff.mp hof'
  have hii : incidents = incidents' := Except.ok.inj (hincidents.symm.trans hincidents')
  subst hii
  constructor
  case base => exact baseOf_le hm hm' hbase hbase'
  case propagated =>
    intro other rule k hi hrule
    rw [hinputs, List.mem_append] at hi
    rcases hi with hi | hi
    · obtain ⟨_, _, _, heq⟩ := Derivation.exists_of_mem_endpointInputs hi
      cases heq
    · obtain ⟨i, hmem, hadmits, heq⟩ := Derivation.mem_propagatedInputs.mp hi
      injection heq with hother heq
      subst hother heq
      refine ⟨(a.view.rules.ruleFor i.relationshipType).withoutRemovals, ?_, ?_⟩
      · rw [Rule.effect_withoutRemovals, Effect.withoutRemoval_eq_add_iff, hrule]
      · rw [hinputs', List.mem_append, ← RuleBook.ruleFor_withoutRemovals]
        exact .inr (Derivation.mem_propagatedInputs.mpr
          ⟨i, hmem, Membership.admits_withoutRemovals_iff.mpr ⟨hadmits, k, hrule⟩, rfl⟩)
  case endpoints =>
    intro source target hi
    rw [hinputs, List.mem_append] at hi
    rcases hi with hi | hi
    · cases hread : d'.base.holds .read with
      | true => exact .inl rfl
      | false =>
        refine .inr ?_
        rw [hinputs', List.mem_append]
        refine .inl ?_
        rw [Derivation.endpointInputs] at hi ⊢
        rw [hread]
        split at hi
        · next hand =>
          rw [Bool.and_eq_true] at hand
          rwa [if_pos (by rw [Bool.and_eq_true]; exact ⟨hand.1, rfl⟩)]
        · exact absurd hi List.not_mem_nil
    · obtain ⟨_, _, _, heq⟩ := Derivation.mem_propagatedInputs.mp hi
      cases heq

/-- Taking away only suppresses: whoever is told permissions is told no less under the same rules
with every removal left out. -/
theorem answer_le_withoutRemovals {s s' : PermissionSet} {memo memo' : LocalMemo}
    (h : a.answer ∅ principal id = .ok (s, memo))
    (h' : a.withoutRemovals.answer ∅ principal id = .ok (s', memo')) : s ≤ s' := by
  cases hsuper : a.isSuperuser principal with
  | error cause =>
    rw [answer_eq, hsuper] at h
    cases h
  | ok exempt =>
    have hsuper' := (isSuperuser_withoutRemovals a principal).trans hsuper
    cases exempt with
    | true =>
      rw [eq_full_of_answer hsuper h, eq_full_of_answer hsuper' h']
      exact PermissionSet.le_refl _
    | false =>
      obtain ⟨entry, hentry, hs⟩ := exists_entries_of_answer_empty hsuper h
      obtain ⟨entry', hentry', hs'⟩ := exists_entries_of_answer_empty hsuper' h'
      have hc := isComplete_of_entries hentry
      have hc' := isComplete_of_entries hentry'
      have hadds : (a.withoutRemovals.derivations principal).Adds :=
        adds_derivations (RuleBook.removesNothing_withoutRemovals a.view.rules)
      have hperm : s = (a.derivations principal).entries.permissions id := by
        rw [hs, Entries.permissions, hentry]
      have hperm' : s' = (a.withoutRemovals.derivations principal).entries.permissions id := by
        rw [hs', Entries.permissions, hentry']
      obtain ⟨d, hd⟩ := mem_iff_getElem?.mp hc.mem
      obtain ⟨d', hd'⟩ := mem_iff_getElem?.mp hc'.mem
      rw [hperm, hperm']
      refine PermissionSet.le_of_le_union_full (permissions_entries_le_union_full hc hd)
        (PermissionSet.le_trans (offers_withoutRemovals hd hd').base ?_) fun k hk => ?_
      · rw [permissions_entries_eq_gain hadds hc' hd']
        exact Derivation.base_le_gain
      · -- the entities may be on other cycles without removals, so the rounds can not be compared,
        -- but a derivation of the kind can be followed
        obtain ⟨l, hl⟩ := exists_supported hc hk
        exact holds_of_supported hadds offers_withoutRemovals hl hc'

/-- A user in a team and in a group that the team contains. What the team holds is taken away from
its users, so under these rules the team is one hop away, and without removals it is two. Two pages
take reading from each other's base in turn, and never settle. -/
def teamTables : Tables where
  entities := .ofList ([
    (⟨1⟩, .node "User"), (⟨2⟩, .node "Team"), (⟨3⟩, .node "Group"), (⟨10⟩, .node "Page"),
    (⟨11⟩, .node "Page"), (⟨20⟩, .relationship "CONTAINS" ⟨2⟩ ⟨1⟩),
    (⟨21⟩, .relationship "CONTAINS" ⟨3⟩ ⟨1⟩), (⟨22⟩, .relationship "CONTAINS" ⟨2⟩ ⟨3⟩),
    (⟨23⟩, .relationship "Link" ⟨10⟩ ⟨11⟩), (⟨24⟩, .relationship "Bar" ⟨11⟩ ⟨10⟩)] :
    List (EntityId × Entity))
  grants := (((∅ : Grants).grant ⟨1⟩ ⟨10⟩ (.single .read)).2.grant ⟨2⟩ ⟨10⟩ (.single .write)).2
  rules := (((RuleBook.ofMembership "CONTAINS").declareBetween ⟨"CONTAINS", "Team", "User"⟩
    ⟨.outward, { write := .remove }⟩).declare "Link" ⟨.outward, { read := .add }⟩).declare "Bar"
      ⟨.outward, { read := .remove }⟩

def team : Access Unavailable where
  view := teamTables.recover.view
  settings := {}

theorem answer_le_withoutRemovals_team : ∃ memo memo',
    team.answer ∅ (.user ⟨1⟩) ⟨10⟩ = .ok (.single .read, memo) ∧
      team.withoutRemovals.answer ∅ (.user ⟨1⟩) ⟨10⟩ =
        .ok (.single .read ∪ .single .write, memo') ∧
      PermissionSet.single .read ≤ .single .read ∪ .single .write := by
  have hanswers : (team.answer ∅ (.user ⟨1⟩) ⟨10⟩).map Prod.fst = .ok (.single .read) ∧
      (team.withoutRemovals.answer ∅ (.user ⟨1⟩) ⟨10⟩).map Prod.fst =
        .ok (.single .read ∪ .single .write) := by
    decide +kernel
  obtain ⟨⟨s, memo⟩, h, hs⟩ := exists_of_map_eq_ok hanswers.1
  obtain ⟨⟨s', memo'⟩, h', hs'⟩ := exists_of_map_eq_ok hanswers.2
  have hle := answer_le_withoutRemovals h h'
  subst hs hs'
  exact ⟨memo, memo', h, h', hle⟩

end Access
end PermissionGraph
