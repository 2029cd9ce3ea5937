import PermissionGraph.Proofs.Access.Suppression

/-!
# PermissionGraph.Proofs.Access.Carried

What a user inherits, group by group. A kind is carried from a group to a user (`Carries`) over
hops each of which adds it and leads one step farther. Under rules that take nothing away, a user
inherits what is granted to a group that carries it (`Inherits.holds_iff`).

When a graph gains relationships (`GraphView.Extends`), a group may get nearer to the user, and hops
that used to lead one step farther are passed over. Then, and only then, a kind that was passed on
may not be any more (`Passed.of_extends`, `Bypassed`).
-/

namespace PermissionGraph

open Std Derivations

variable {ε : Type}

/-- A graph with all that is in another: the same entities, rules and grants, and possibly more
entities and relationships. -/
structure GraphView.Extends (view' view : GraphView ε) : Prop where
  rules : view'.rules = view.rules
  granted : ∀ principal id, view'.granted principal id = view.granted principal id
  entity : ∀ {id : EntityId} {e : Entity}, view.entity? id = .ok (some e) →
    view'.entity? id = .ok (some e)
  incidents : ∀ {id : EntityId} {l : List Incident}, view.incidents id = .ok l →
    ∃ l', view'.incidents id = .ok l' ∧ ∀ i ∈ l, i ∈ l'

namespace Membership

variable {view view' : GraphView ε} {settings : Settings} {user entity member x : EntityId}
  {hop : Hop} {k : Permission} {n : Nat} {X : EntityId → PermissionSet}

/-! ## Carrying -/

/-- A kind is carried to a user from an entity `n` hops away. -/
inductive Carries (view : GraphView ε) (settings : Settings) (user : EntityId) (k : Permission) :
    Nat → EntityId → Prop where
  | user : Carries view settings user k 0 user
  | hop {n : Nat} {x : EntityId} {hop : Hop} : Carries view settings user k n x →
      n < settings.maxGroupDepth → Takes view settings x hop → hop.rule.effect k = .add →
      At view settings user (n + 1) hop.group → Carries view settings user k (n + 1) hop.group

/-- A kind on an entity is granted to the user or to a group that it is carried from. -/
def Passed (view : GraphView ε) (settings : Settings) (user : EntityId) (k : Permission)
    (entity : EntityId) : Prop :=
  ∃ n group granted, Carries view settings user k n group ∧
    view.granted group entity = .ok granted ∧ granted.holds k = true

theorem Carries.atDistance (h : Carries view settings user k n x) : At view settings user n x := by
  cases h with
  | user => exact atDistance_zero_iff.mpr rfl
  | hop _ _ _ _ hat => exact hat

theorem Carries.le (h : Carries view settings user k n x) : n ≤ settings.maxGroupDepth := by
  cases h with
  | user => exact Nat.zero_le _
  | hop _ hlt _ _ _ => exact hlt

/-- No membership hop takes a kind away. -/
def HopsRemoveNothing (view : GraphView ε) (settings : Settings) : Prop :=
  ∀ member hop, Takes view settings member hop → ∀ k, hop.rule.effect k ≠ .remove

theorem hopsRemoveNothing (hrules : view.rules.RemovesNothing) :
    HopsRemoveNothing view settings := by
  intro member hop h k
  obtain ⟨_, _, i, _, _, _, rfl⟩ := takes_iff_exists_incident.mp h
  exact hrules.effect_ruleFor i.relationshipType k

theorem Inherits.holds_of_atDistance (h : Inherits view settings user entity X)
    (hhops : HopsRemoveNothing view settings) (hn : n ≤ settings.maxGroupDepth)
    (hx : At view settings user n x) :
    ∃ granted, view.granted x entity = .ok granted ∧ granted ≤ X x ∧
      ∀ k, (X x).holds k = true ↔ granted.holds k = true ∨ ∃ hop, n < settings.maxGroupDepth ∧
        Takes view settings x hop ∧ At view settings user (n + 1) hop.group ∧
          hop.rule.effect k = .add ∧ (X hop.group).holds k = true := by
  obtain ⟨granted, hops, hgranted, hX, hmem⟩ := h n x hn hx
  rw [combine_of_adds fun hop hhop k => hhops _ hop ((hmem hop).mp hhop).2.1 k] at hX
  refine ⟨granted, hgranted, ?_, fun k => ?_⟩
  · rw [hX]
    exact PermissionSet.le_union_left _ _
  · rw [hX, PermissionSet.holds_union, PermissionSet.holds_sum, List.any_map, Bool.or_eq_true,
      List.any_eq_true]
    refine or_congr_right ?_
    constructor
    · rintro ⟨hop, hhop, hk⟩
      obtain ⟨hlt, htakes, hat⟩ := (hmem hop).mp hhop
      have hk : (hop.rule.added (X hop.group)).holds k = true := hk
      rw [Rule.holds_added, Bool.and_eq_true, beq_iff_eq] at hk
      exact ⟨hop, hlt, htakes, hat, hk.2, hk.1⟩
    · rintro ⟨hop, hlt, htakes, hat, hadd, hk⟩
      refine ⟨hop, (hmem hop).mpr ⟨hlt, htakes, hat⟩, ?_⟩
      show (hop.rule.added (X hop.group)).holds k = true
      rw [Rule.holds_added, hk, hadd]
      rfl

theorem Inherits.own (h : Inherits view settings user entity X)
    (hhops : HopsRemoveNothing view settings) :
    ∃ granted, view.granted user entity = .ok granted ∧ granted ≤ X user ∧
      X user ≤ granted ∪ .full := by
  have huser : At view settings user 0 user := atDistance_zero_iff.mpr rfl
  obtain ⟨granted, hops, hgranted, hX, _⟩ := h 0 user (Nat.zero_le _) huser
  obtain ⟨found, hfound, hle, _⟩ := h.holds_of_atDistance hhops (Nat.zero_le _) huser
  have heq := hgranted.symm.trans hfound
  injection heq with heq
  refine ⟨granted, hgranted, heq ▸ hle, ?_⟩
  rw [hX]
  exact combine_le_union_full _ _ _

theorem Carries.holds_user (hc : Carries view settings user k n x)
    (h : Inherits view settings user entity X) (hhops : HopsRemoveNothing view settings)
    (hk : (X x).holds k = true) : (X user).holds k = true := by
  induction hc with
  | user => exact hk
  | hop hc hlt htakes hadd hat ih =>
    obtain ⟨_, _, _, hiff⟩ := h.holds_of_atDistance hhops hc.le hc.atDistance
    exact ih ((hiff k).mpr (.inr ⟨_, hlt, htakes, hat, hadd, hk⟩))

/-- What a carrying group holds is granted to a group that carries it: by induction on how many hops
are left to the greatest depth. -/
theorem Carries.passed (hc : Carries view settings user k n x)
    (h : Inherits view settings user entity X) (hhops : HopsRemoveNothing view settings)
    (hk : (X x).holds k = true) : Passed view settings user k entity := by
  obtain ⟨left, hleft⟩ := Nat.exists_eq_add_of_le hc.le
  induction left generalizing n x with
  | zero =>
    obtain ⟨granted, hgranted, _, hiff⟩ := h.holds_of_atDistance hhops hc.le hc.atDistance
    rcases (hiff k).mp hk with hk | ⟨_, hlt, _⟩
    · exact ⟨n, x, granted, hc, hgranted, hk⟩
    · omega
  | succ left ih =>
    obtain ⟨granted, hgranted, _, hiff⟩ := h.holds_of_atDistance hhops hc.le hc.atDistance
    rcases (hiff k).mp hk with hk | ⟨hop, hlt, htakes, hat, hadd, hk⟩
    · exact ⟨n, x, granted, hc, hgranted, hk⟩
    · exact ih (.hop hc hlt htakes hadd hat) hk (by omega)

theorem Inherits.holds_iff (h : Inherits view settings user entity X)
    (hhops : HopsRemoveNothing view settings) :
    (X user).holds k = true ↔ Passed view settings user k entity := by
  constructor
  · exact fun hk => Carries.user.passed h hhops hk
  · rintro ⟨n, group, granted, hc, hgranted, hk⟩
    obtain ⟨found, hfound, hle, _⟩ := h.holds_of_atDistance hhops hc.le hc.atDistance
    have heq := hgranted.symm.trans hfound
    injection heq with heq
    rw [heq] at hk
    exact hc.holds_user h hhops (PermissionSet.holds_of_le hle hk)

/-! ## Graphs that gain relationships -/

theorem Takes.of_extends (h : view'.Extends view) (ht : Takes view settings member hop) :
    Takes view' settings member hop := by
  obtain ⟨l, hl, i, hi, hname, hadmits, rfl⟩ := takes_iff_exists_incident.mp ht
  obtain ⟨l', hl', hsub⟩ := h.incidents hl
  rw [← h.rules] at hadmits
  exact takes_iff_exists_incident.mpr ⟨l', hl', i, hsub i hi, hname, hadmits, by rw [h.rules]⟩

/-- A group that carried a kind still does, unless it has got nearer. If an entity on the way gets
nearer, so does everything that is carried over it. -/
theorem Carries.of_extends (h : view'.Extends view) (hc : Carries view settings user k n x) :
    Carries view' settings user k n x ∨ ∃ m < n, At view' settings user m x := by
  induction hc with
  | user => exact .inl .user
  | @hop n x hop _ hlt htakes hadd _ ih =>
    have htakes' := htakes.of_extends h
    have hleads : LeadsTo view' settings x hop.group := ⟨hop, htakes', rfl⟩
    rcases ih with hc' | ⟨m, hm, hat'⟩
    · by_cases hwithin : Within (LeadsTo view' settings) user n hop.group
      · obtain ⟨m, hm, hat'⟩ := within_iff_exists.mp hwithin
        exact .inr ⟨m, Nat.lt_succ_of_le hm, hat'⟩
      · exact .inl (.hop hc' hlt htakes' hadd ((hc'.atDistance.step hleads).mpr hwithin))
    · have hwithin : Within (LeadsTo view' settings) user (m + 1) hop.group :=
        .inr ⟨x, hat'.within, hleads⟩
      obtain ⟨i, hi, hat'⟩ := within_iff_exists.mp hwithin
      exact .inr ⟨i, by omega, hat'⟩

/-- A kind on an entity is bypassed when it was passed on by a group that has got nearer, and is
passed on by none any more. -/
structure Bypassed (view view' : GraphView ε) (settings : Settings) (user : EntityId)
    (k : Permission) (entity : EntityId) : Prop where
  nearer : ∃ n m group granted, Carries view settings user k n group ∧
    view.granted group entity = .ok granted ∧ granted.holds k = true ∧
      m < n ∧ At view' settings user m group
  not_passed : ¬ Passed view' settings user k entity

theorem Passed.of_extends (h : view'.Extends view) (hp : Passed view settings user k entity) :
    Passed view' settings user k entity ∨ Bypassed view view' settings user k entity := by
  by_cases hp' : Passed view' settings user k entity
  · exact .inl hp'
  · obtain ⟨n, group, granted, hc, hgranted, hk⟩ := hp
    rcases hc.of_extends h with hc' | ⟨m, hm, hat'⟩
    · rw [← h.granted] at hgranted
      exact absurd ⟨n, group, granted, hc', hgranted, hk⟩ hp'
    · exact .inr ⟨⟨n, m, group, granted, hc, hgranted, hk, hm, hat'⟩, hp'⟩

end Membership
end PermissionGraph
