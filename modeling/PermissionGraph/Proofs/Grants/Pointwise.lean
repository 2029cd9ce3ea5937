import Mathlib.Data.Set.Card
import PermissionGraph.Grants
import PermissionGraph.Proofs.Permission.Order

/-!
# PermissionGraph.Proofs.Grants.Pointwise

The grants as a map from pairs to sets. A pair without a row holds the empty set, and no row is
empty (`Grants.Filled`), so rows and pairs with a set that is not empty are the same thing.

* `lookup_run`: every edit does to the grants what it does pair by pair.
* `Filled.run`: no edit leaves an empty row behind.
* `Pointwise`: what is counted, reported and listed, told pair by pair.
* `pointwise_after`: so it is after any edits.
-/

namespace PermissionGraph

open Std

/-- Keys that agree on the entity are in the order of their principals. -/
theorem GrantKey.principal_lt {a b : GrantKey} (h : compare a b = .lt)
    (hentity : a.entity = b.entity) : a.principal.number < b.principal.number := by
  have hlex : (compareOn GrantKey.principal a b).then (compareOn GrantKey.entity a b) = .lt := h
  rw [compareOn_eq_iff.mpr hentity, Ordering.then_eq] at hlex
  exact Nat.compare_eq_lt.mp hlex

namespace Grants

variable {g : Grants} {principal entity id : EntityId} {key : GrantKey} {held kinds : PermissionSet}

/-! ## Rows -/

/-- No row is empty. -/
def Filled (g : Grants) : Prop :=
  ∀ (key : GrantKey) (held : PermissionSet), g.rows[key]? = some held → held ≠ ∅

theorem filled_empty : (∅ : Grants).Filled := by
  intro key held h
  have hrows : (∅ : Grants).rows = ∅ := rfl
  simp [hrows] at h

theorem Filled.grant (h : g.Filled) : (g.grant principal entity kinds).2.Filled := by
  intro key found hfound
  rw [getElem?_grant] at hfound
  split at hfound
  · next hgranted =>
    injection hfound with hfound
    rw [← hfound]
    exact PermissionSet.union_ne_empty _ hgranted.2
  · exact h key found hfound

theorem Filled.revoke (h : g.Filled) : (g.revoke principal entity kinds).2.Filled := by
  intro key found hfound
  rw [getElem?_revoke] at hfound
  split at hfound
  · obtain ⟨before, _, hbefore⟩ := Option.bind_eq_some_iff.mp hfound
    split at hbefore
    · cases hbefore
    · next hempty =>
      injection hbefore with hbefore
      rwa [← hbefore]
  · exact h key found hfound

theorem Filled.removeEntity (h : g.Filled) : (g.removeEntity id).2.Filled := by
  intro key found hfound
  rw [rows_removeEntity, ExtTreeMap.getElem?_filter'] at hfound
  exact h key found (Option.filter_eq_some_iff.mp hfound).1

/-- A row holds what is looked up of its pair. -/
theorem Filled.getElem?_rows_iff (h : g.Filled) :
    g.rows[key]? = some held ↔ g.lookup key.principal key.entity = held ∧ held ≠ ∅ := by
  rw [lookup, ExtTreeMap.getD_eq_getD_getElem?]
  constructor
  · intro hrow
    refine ⟨?_, h key held hrow⟩
    show (g.rows[key]?).getD ∅ = held
    rw [hrow]
    rfl
  · rintro ⟨hlookup, hne⟩
    have hlookup : (g.rows[key]?).getD ∅ = held := hlookup
    cases hrow : g.rows[key]? with
    | none =>
      rw [hrow] at hlookup
      exact absurd hlookup.symm hne
    | some found =>
      rw [hrow] at hlookup
      exact congrArg some hlookup

/-- The pairs with a row are those with a set that is not empty. -/
theorem Filled.mem_keys_iff (h : g.Filled) :
    key ∈ g.rows.keys ↔ g.lookup key.principal key.entity ≠ ∅ := by
  rw [ExtTreeMap.mem_keys, ExtTreeMap.mem_iff_isSome_getElem?, Option.isSome_iff_exists]
  simp only [h.getElem?_rows_iff]
  simp

theorem Filled.encard_eq_size (h : g.Filled) :
    {key : GrantKey | g.lookup key.principal key.entity ≠ ∅}.encard = g.size := by
  have hkeys : {key : GrantKey | g.lookup key.principal key.entity ≠ ∅} = g.rows.keys.toFinset := by
    ext key
    rw [Set.mem_ofPred_eq, Finset.mem_coe, List.mem_toFinset, h.mem_keys_iff]
  rw [hkeys, Set.encard_coe_eq_coe_finsetCard, List.toFinset_card_of_nodup g.rows.nodup_keys,
    ExtTreeMap.length_keys]
  rfl

/-! ## What is listed -/

theorem Filled.mem_onEntity_iff (h : g.Filled) :
    (principal, held) ∈ g.onEntity entity ↔ g.lookup principal entity = held ∧ held ≠ ∅ := by
  rw [onEntity, List.mem_filterMap]
  constructor
  · rintro ⟨⟨key, found⟩, hrow, hlisted⟩
    rw [ExtTreeMap.mem_toList_iff_getElem?_eq_some, h.getElem?_rows_iff] at hrow
    dsimp only at hlisted
    split at hlisted
    · next hentity =>
      injection hlisted with hlisted
      injection hlisted with hprincipal hfound
      rw [← hprincipal, ← hentity, ← hfound]
      exact hrow
    · cases hlisted
  · intro hrow
    refine ⟨(⟨principal, entity⟩, held), ?_, if_pos rfl⟩
    rwa [ExtTreeMap.mem_toList_iff_getElem?_eq_some, h.getElem?_rows_iff]

/-- The rows on one entity ascend as their principals do. -/
theorem pairwise_onEntity (g : Grants) (entity : EntityId) :
    (g.onEntity entity).Pairwise fun a b => a.1.number < b.1.number := by
  refine List.Pairwise.filterMap _ ?_ g.rows.ordered_keys_toList
  rintro ⟨key, found⟩ ⟨key', found'⟩ hlt a ha b hb
  dsimp only at hlt ha hb
  split at ha
  · next hentity =>
    split at hb
    · next hentity' =>
      injection ha with ha
      injection hb with hb
      rw [← ha, ← hb]
      exact GrantKey.principal_lt hlt (hentity.trans hentity'.symm)
    · cases hb
  · cases ha

/-! ## Edits -/

/-- An edit of the grants. -/
inductive Edit where
  | grant (principal entity : EntityId) (kinds : PermissionSet)
  | revoke (principal entity : EntityId) (kinds : PermissionSet)
  | removeEntity (id : EntityId)

namespace Edit

def run (g : Grants) : Edit → Grants
  | grant principal entity kinds => (g.grant principal entity kinds).2
  | revoke principal entity kinds => (g.revoke principal entity kinds).2
  | removeEntity id => (g.removeEntity id).2

/-- What an edit does to what each principal holds on each entity. -/
def effect (held : EntityId → EntityId → PermissionSet) (edit : Edit) (q f : EntityId) :
    PermissionSet :=
  match edit with
  | grant principal entity kinds =>
    if principal = q ∧ entity = f then held q f ∪ kinds else held q f
  | revoke principal entity kinds =>
    if principal = q ∧ entity = f then held q f \ kinds else held q f
  | removeEntity id => if q = id ∨ f = id then ∅ else held q f

end Edit

theorem lookup_run (g : Grants) (edit : Edit) : (edit.run g).lookup = edit.effect g.lookup := by
  funext q f
  cases edit with
  | grant principal entity kinds =>
    rw [Edit.run, lookup_grant, Edit.effect]
    split
    · next h => rw [h.1, h.2]
    · rfl
  | revoke principal entity kinds =>
    rw [Edit.run, lookup_revoke, Edit.effect]
    split
    · next h => rw [h.1, h.2]
    · rfl
  | removeEntity id => exact lookup_removeEntity g id q f

theorem Filled.run (h : g.Filled) (edit : Edit) : (edit.run g).Filled := by
  cases edit with
  | grant principal entity kinds => exact h.grant
  | revoke principal entity kinds => exact h.revoke
  | removeEntity id => exact h.removeEntity

/-- The grants after some edits, beginning with none. -/
def after (edits : List Edit) : Grants := edits.foldl Edit.run ∅

/-- What each principal holds on each entity after some edits, told pair by pair. -/
def heldAfter (edits : List Edit) : EntityId → EntityId → PermissionSet :=
  edits.foldl Edit.effect fun _ _ => ∅

theorem Filled.foldl_run (h : g.Filled) (edits : List Edit) :
    (edits.foldl Edit.run g).Filled :=
  List.foldlRecOn edits Edit.run h fun _ hg edit _ => hg.run edit

theorem lookup_foldl_run (g : Grants) (edits : List Edit) :
    (edits.foldl Edit.run g).lookup = edits.foldl Edit.effect g.lookup := by
  induction edits generalizing g with
  | nil => rfl
  | cons edit edits ih => rw [List.foldl_cons, List.foldl_cons, ih, lookup_run]

theorem lookup_after (edits : List Edit) : (after edits).lookup = heldAfter edits := by
  have hempty : (∅ : Grants).lookup = fun _ _ => ∅ := by
    funext principal entity
    exact lookup_empty principal entity
  rw [after, lookup_foldl_run, hempty]
  rfl

/-- Grants that say, in all that can be asked of them, what is held pair by pair. -/
structure Pointwise (g : Grants) (held : EntityId → EntityId → PermissionSet) : Prop where
  lookup : ∀ principal entity, g.lookup principal entity = held principal entity
  filled : g.Filled
  size : {key : GrantKey | held key.principal key.entity ≠ ∅}.encard = g.size
  /-- Granting reports a change if the set of the pair is another afterwards. -/
  grant : ∀ principal entity kinds, (g.grant principal entity kinds).1 = true ↔
    held principal entity ∪ kinds ≠ held principal entity
  /-- Revoking reports a change if the set of the pair is another afterwards. -/
  revoke : ∀ principal entity kinds, (g.revoke principal entity kinds).1 = true ↔
    held principal entity \ kinds ≠ held principal entity
  /-- Removing an entity reports every pair that mentions it and has a set that is not empty. -/
  removeEntity : ∀ id, (g.removeEntity id).1.Nodup ∧ ∀ key, key ∈ (g.removeEntity id).1 ↔
    (key.principal = id ∨ key.entity = id) ∧ held key.principal key.entity ≠ ∅
  onEntity : ∀ entity, (g.onEntity entity).Pairwise (fun a b => a.1.number < b.1.number) ∧
    ∀ (principal : EntityId) (row : PermissionSet), (principal, row) ∈ g.onEntity entity ↔
      held principal entity = row ∧ row ≠ ∅

theorem Filled.pointwise (h : g.Filled) : g.Pointwise g.lookup where
  lookup _ _ := rfl
  filled := h
  size := h.encard_eq_size
  grant _ _ _ := grant_changes_iff
  revoke _ _ _ := revoke_changes_iff
  removeEntity id := by
    refine ⟨g.rows.nodup_keys.filter _, fun key => ?_⟩
    rw [mem_removed, ← h.mem_keys_iff, ExtTreeMap.mem_keys, ExtTreeMap.mem_iff_isSome_getElem?,
      Option.isSome_iff_exists]
  onEntity entity := ⟨pairwise_onEntity g entity, fun _ _ => h.mem_onEntity_iff⟩

/-- After any edits, with any sets, the grants say what is held pair by pair. -/
theorem pointwise_after (edits : List Edit) : (after edits).Pointwise (heldAfter edits) := by
  rw [← lookup_after]
  exact (filled_empty.foldl_run edits).pointwise

-- Granting nothing leaves no row behind, nor does revoking all that is held; a row of an entity on
-- itself is reported once, and a bit that stands for no kind makes a row like any other.
example :
    let g := after [.grant ⟨1⟩ ⟨1⟩ ⟨0x80⟩, .grant ⟨2⟩ ⟨1⟩ ∅, .grant ⟨3⟩ ⟨1⟩ (.single .read),
      .revoke ⟨3⟩ ⟨1⟩ .full]
    g.size = 1 ∧ (g.removeEntity ⟨1⟩).1 = [⟨⟨1⟩, ⟨1⟩⟩] := by
  decide +kernel

end Grants
end PermissionGraph
