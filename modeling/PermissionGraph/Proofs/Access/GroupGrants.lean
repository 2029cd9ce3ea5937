import PermissionGraph.Proofs.Access.Closure
import PermissionGraph.Proofs.Access.Growth

/-!
# PermissionGraph.Proofs.Access.GroupGrants

Grants of groups add up. Where membership hands on every kind, as the rule that a new store has does
(`RuleBook.addsAll_ofMembership`), a user holds what is granted to it and every kind that is granted
to a group within the greatest depth (`grantsWithin_eq`), however the groups hang together: a hop
that does not lead one step farther is passed over, but what it leads to is reached by others. Bits
that stand for no kind are not handed on.
-/

namespace PermissionGraph

variable {ε : Type}

namespace RuleBook

/-- Every rule for relationships of a name adds every kind, if it propagates at all. -/
def AddsAll (rules : RuleBook) (name : String) : Prop :=
  ∀ (type : RelationshipType) (direction : Direction), type.name = name →
    (rules.ruleFor type).propagates direction = true → ∀ k, (rules.ruleFor type).effect k = .add

theorem addsAll_ofMembership (name : String) : (ofMembership name).AddsAll name := by
  intro type direction hname _ k
  have hnone : type ∉ (∅ : RuleBook).byType := Std.ExtTreeMap.not_mem_empty
  rw [ofMembership, ruleFor_declare, if_pos ⟨hnone, hname.symm⟩, Rule.effect, Rule.membership,
    Effects.get_always]

end RuleBook

namespace Membership

variable {view : GraphView ε} {settings : Settings} {user entity member x : EntityId} {hop : Hop}
  {k : Permission} {n depth more : Nat}

/-- What a user is granted on an entity, itself or over its groups within a depth. -/
def grantsWithin (view : GraphView ε) (settings : Settings) (depth : Nat)
    (user entity : EntityId) : Except ε PermissionSet := do
  let members ← closure view { settings with maxGroupDepth := depth } user
  inherited view members user entity

/-- A kind is granted to the user or to a group that it is within a depth of. -/
def GrantedWithin (view : GraphView ε) (settings : Settings) (depth : Nat)
    (user entity : EntityId) (k : Permission) : Prop :=
  ∃ group granted, Within (Belongs view settings) user depth group ∧
    view.granted group entity = .ok granted ∧ granted.holds k = true

theorem GrantedWithin.mono (h : GrantedWithin view settings depth user entity k)
    (hle : depth ≤ more) : GrantedWithin view settings more user entity k := by
  obtain ⟨group, granted, hwithin, hgranted⟩ := h
  exact ⟨group, granted, hwithin.mono hle, hgranted⟩

section AddsAll

variable (hadds : view.rules.AddsAll settings.membershipName)
include hadds

theorem Takes.effect_eq_add (h : Takes view settings member hop) (k : Permission) :
    hop.rule.effect k = .add := by
  obtain ⟨_, _, i, _, hname, hadmits, rfl⟩ := takes_iff_exists_incident.mp h
  exact hadds i.relationshipType i.direction hname hadmits k

theorem hopsRemoveNothing_of_addsAll : HopsRemoveNothing view settings := by
  intro member hop h k
  rw [h.effect_eq_add hadds k]
  decide

/-- What is at a distance is at the end of hops each of which leads one step farther, and they all
add. -/
theorem carries_of_atDistance (hn : n ≤ settings.maxGroupDepth)
    (hx : At view settings user n x) : Carries view settings user k n x := by
  induction n generalizing x with
  | zero =>
    rw [atDistance_zero_iff.mp hx]
    exact .user
  | succ n ih =>
    obtain ⟨_, y, hy, hop, htakes, rfl⟩ := atDistance_succ_iff.mp hx
    exact .hop (ih (Nat.le_of_succ_le hn) hy) hn htakes (htakes.effect_eq_add hadds k) hx

theorem passed_iff : Passed view settings user k entity ↔
    GrantedWithin view settings settings.maxGroupDepth user entity k := by
  rw [GrantedWithin, ← leadsTo_eq]
  constructor
  · rintro ⟨n, group, granted, hcarries, hgranted⟩
    exact ⟨group, granted, hcarries.atDistance.within.mono hcarries.le, hgranted⟩
  · rintro ⟨group, granted, hwithin, hgranted⟩
    obtain ⟨n, hn, hat⟩ := within_iff_exists.mp hwithin
    exact ⟨n, group, granted, carries_of_atDistance hadds hn hat, hgranted⟩

/-- A user inherits what is granted to it and the kinds that are granted to its groups. -/
theorem Inherits.eq_of_addsAll {X : EntityId → PermissionSet}
    (h : Inherits view settings user entity X) :
    ∃ own, view.granted user entity = .ok own ∧ X user = own ∪ .ofList (PermissionSet.kindsOf
      (GrantedWithin view settings settings.maxGroupDepth user entity)) := by
  have hhops := hopsRemoveNothing_of_addsAll hadds
  obtain ⟨own, hown, hge, hle⟩ := h.own hhops
  refine ⟨own, hown, PermissionSet.le_antisymm ?_ ?_⟩
  · refine PermissionSet.le_of_le_union_full hle (PermissionSet.le_union_left _ _) fun k hk => ?_
    rw [h.holds_iff hhops, passed_iff hadds] at hk
    exact PermissionSet.holds_union_kindsOf.mpr (.inr hk)
  · refine PermissionSet.union_ofList_le_iff.mpr ⟨hge, fun k hk => ?_⟩
    rw [h.holds_iff hhops, passed_iff hadds]
    exact PermissionSet.mem_kindsOf.mp hk

end AddsAll

theorem exists_grantsWithin (h : view.Available)
    (hadds : view.rules.AddsAll settings.membershipName) (depth : Nat) (user entity : EntityId) :
    ∃ own s, view.granted user entity = .ok own ∧
      grantsWithin view settings depth user entity = .ok s ∧
      s = own ∪ .ofList (PermissionSet.kindsOf
        (GrantedWithin view settings depth user entity)) := by
  obtain ⟨members, hm⟩ := exists_closure h.incidents { settings with maxGroupDepth := depth } user
  obtain ⟨s, hs⟩ := exists_inherited h members user entity
  obtain ⟨X, hX, rfl⟩ := inherited_spec hm hs
  have hadds' :
      view.rules.AddsAll ({ settings with maxGroupDepth := depth }).membershipName := hadds
  obtain ⟨own, hown, heq⟩ := hX.eq_of_addsAll hadds'
  exact ⟨own, X user, hown, bind_eq_ok_iff.mpr ⟨members, hm, hs⟩, heq⟩

/-- Where membership adds every kind, a user holds what is granted to it and every kind that is
granted to a group within the depth that is walked. Walking deeper never yields less. -/
theorem grantsWithin_eq (h : view.Available)
    (hadds : view.rules.AddsAll settings.membershipName) (depth : Nat) (user entity : EntityId) :
    ∃ own s, view.granted user entity = .ok own ∧
      grantsWithin view settings depth user entity = .ok s ∧
      s = own ∪ .ofList (PermissionSet.kindsOf
        (GrantedWithin view settings depth user entity)) ∧
      ∀ more ≥ depth, ∃ s', grantsWithin view settings more user entity = .ok s' ∧ s ≤ s' := by
  obtain ⟨own, s, hown, hs, heq⟩ := exists_grantsWithin h hadds depth user entity
  refine ⟨own, s, hown, hs, heq, fun more hmore => ?_⟩
  obtain ⟨own', s', hown', hs', heq'⟩ := exists_grantsWithin h hadds more user entity
  have hsame := hown.symm.trans hown'
  injection hsame with hsame
  refine ⟨s', hs', ?_⟩
  rw [heq, heq', ← hsame, PermissionSet.union_ofList_le_iff]
  refine ⟨PermissionSet.le_union_left _ _, fun k hk => ?_⟩
  have hk := PermissionSet.mem_kindsOf.mp hk
  exact PermissionSet.holds_union_kindsOf.mpr (.inr (hk.mono hmore))

/-- The groups of `circles`, with grants on a page: to the user, and to the two groups farthest
away. Those to the user and to the nearer group have bits that stand for no kind. -/
def poolTables : Tables :=
  { circlesTables with
    entities := circlesTables.entities.insert ⟨10⟩ (.node "Page")
    grants := ((((∅ : Grants).grant ⟨1⟩ ⟨10⟩ ⟨0x81⟩).2.grant ⟨4⟩ ⟨10⟩ ⟨0x42⟩).2.grant
      ⟨5⟩ ⟨10⟩ ⟨0x04⟩).2 }

def pool : GraphView Unavailable := poolTables.recover.view

theorem grantsWithin_eq_pool : pool.Available ∧ pool.rules.AddsAll "CONTAINS" ∧
    pool.granted ⟨1⟩ ⟨10⟩ = .ok ⟨0x81⟩ ∧ grantsWithin pool {} 2 ⟨1⟩ ⟨10⟩ = .ok ⟨0x83⟩ ∧
    ⟨0x83⟩ = (⟨0x81⟩ : PermissionSet) ∪
      .ofList (PermissionSet.kindsOf (GrantedWithin pool {} 2 ⟨1⟩ ⟨10⟩)) ∧
    grantsWithin pool {} 3 ⟨1⟩ ⟨10⟩ = .ok ⟨0x87⟩ ∧ (⟨0x83⟩ : PermissionSet) ≤ ⟨0x87⟩ := by
  have havailable : pool.Available := poolTables.available_recover
  have hadds : pool.rules.AddsAll "CONTAINS" := RuleBook.addsAll_ofMembership "CONTAINS"
  have hown : pool.granted ⟨1⟩ ⟨10⟩ = .ok ⟨0x81⟩ := by decide +kernel
  have hnear : grantsWithin pool {} 2 ⟨1⟩ ⟨10⟩ = .ok ⟨0x83⟩ := by decide +kernel
  have hfar : grantsWithin pool {} 3 ⟨1⟩ ⟨10⟩ = .ok ⟨0x87⟩ := by decide +kernel
  obtain ⟨own, s, hown', hs, heq, hmore⟩ :=
    @grantsWithin_eq _ pool {} havailable hadds 2 ⟨1⟩ ⟨10⟩
  obtain ⟨s', hs', hle⟩ := hmore 3 (by decide)
  rw [hown] at hown'
  rw [hnear] at hs
  rw [hfar] at hs'
  cases hown'
  cases hs
  cases hs'
  exact ⟨havailable, hadds, hown, hnear, heq, hfar, hle⟩

end Membership
end PermissionGraph
