import PermissionGraph.Graph.Entity
import PermissionGraph.Permission.Set

/-!
# PermissionGraph.Grants

Explicit grants. There is at most one row for a principal and an entity; granting merges into it,
revoking takes only the named kinds away, and a row that would hold nothing is not kept.

`Grants.lookup` is the view through which the operations are described: `lookup_grant`,
`lookup_revoke` and `lookup_removeEntity`.
-/

namespace PermissionGraph

open Std

/-- Which principal a grant is held by and which entity it is on. -/
structure GrantKey where
  principal : EntityId
  entity : EntityId
  deriving DecidableEq, Repr

namespace GrantKey

instance : Ord GrantKey := ⟨compareLex (compareOn principal) (compareOn entity)⟩

instance : TransOrd GrantKey :=
  inferInstanceAs (TransCmp (compareLex (compareOn principal) (compareOn entity)))

instance : LawfulEqOrd GrantKey where
  eq_of_compare {a b} h := by
    obtain ⟨h₁, h₂⟩ := compareBoth_eq_iff.mp h
    rw [compareOn_eq_iff] at h₁ h₂
    cases a; cases b; simp_all

/-- Whether an entity is one of the two. -/
def mentions (key : GrantKey) (id : EntityId) : Bool := key.principal == id || key.entity == id

end GrantKey

structure Grants where
  rows : ExtTreeMap GrantKey PermissionSet := ∅
  deriving DecidableEq

namespace Grants

instance : EmptyCollection Grants := ⟨{}⟩
instance : Inhabited Grants := ⟨∅⟩

/-- The permissions granted to a principal on an entity. -/
def lookup (g : Grants) (principal entity : EntityId) : PermissionSet :=
  g.rows.getD ⟨principal, entity⟩ ∅

/-- Grants kinds to a principal on an entity, and says whether the row has changed. Granting nothing
makes no row. -/
def grant (g : Grants) (principal entity : EntityId) (kinds : PermissionSet) : Bool × Grants :=
  if kinds.isEmpty then (false, g)
  else
    let before := g.lookup principal entity
    let after := before ∪ kinds
    (before != after, ⟨g.rows.insert ⟨principal, entity⟩ after⟩)

/-- Revokes kinds from a principal on an entity, and says whether the row has changed. -/
def revoke (g : Grants) (principal entity : EntityId) (kinds : PermissionSet) : Bool × Grants :=
  match g.rows[(⟨principal, entity⟩ : GrantKey)]? with
  | none => (false, g)
  | some before =>
    let after := before \ kinds
    (before != after,
      ⟨if after.isEmpty then g.rows.erase ⟨principal, entity⟩
        else g.rows.insert ⟨principal, entity⟩ after⟩)

/-- Removes every row held by an entity or on it, and says which they were. -/
def removeEntity (g : Grants) (id : EntityId) : List GrantKey × Grants :=
  let removed := g.rows.keys.filter (·.mentions id)
  (removed, ⟨removed.foldl (fun rows key => rows.erase key) g.rows⟩)

/-- Who holds what on an entity, by ascending principal. -/
def onEntity (g : Grants) (entity : EntityId) : List (EntityId × PermissionSet) :=
  g.rows.toList.filterMap fun (key, held) =>
    if key.entity = entity then some (key.principal, held) else none

def size (g : Grants) : Nat := g.rows.size

def isEmpty (g : Grants) : Bool := g.rows.isEmpty

@[simp] theorem lookup_empty (principal entity : EntityId) :
    (∅ : Grants).lookup principal entity = ∅ := by
  change ExtTreeMap.getD ∅ _ _ = _
  simp

theorem lookup_eq (g : Grants) (principal entity : EntityId) :
    g.lookup principal entity = (g.rows[(⟨principal, entity⟩ : GrantKey)]?).getD ∅ :=
  ExtTreeMap.getD_eq_getD_getElem?

/-! ## Granting -/

theorem getElem?_grant (g : Grants) (p e : EntityId) (kinds : PermissionSet) (key : GrantKey) :
    (g.grant p e kinds).2.rows[key]? =
      if key = ⟨p, e⟩ ∧ kinds ≠ ∅ then some (g.lookup p e ∪ kinds) else g.rows[key]? := by
  rw [grant]
  split
  · next h => simp [PermissionSet.isEmpty_iff.mp h]
  · next h =>
    rw [PermissionSet.isEmpty_iff] at h
    by_cases hk : key = ⟨p, e⟩
    · simp [hk, h]
    · have hne : compare (⟨p, e⟩ : GrantKey) key ≠ .eq := fun heq =>
        hk (compare_eq_iff_eq.mp heq).symm
      simp [ExtTreeMap.getElem?_insert, hk, hne]

theorem lookup_grant (g : Grants) (p e q f : EntityId) (kinds : PermissionSet) :
    (g.grant p e kinds).2.lookup q f =
      if p = q ∧ e = f then g.lookup p e ∪ kinds else g.lookup q f := by
  rw [lookup_eq, getElem?_grant]
  by_cases h : p = q ∧ e = f
  · obtain ⟨rfl, rfl⟩ := h
    by_cases hk : kinds = ∅
    · simp [hk, lookup_eq]
    · simp [hk]
  · have hne : (⟨q, f⟩ : GrantKey) ≠ ⟨p, e⟩ := by
      rintro ⟨⟩
      exact h ⟨rfl, rfl⟩
    simp [hne, h, lookup_eq]

/-- A change is reported if the pair holds something else afterwards. -/
theorem grant_changes_iff {g : Grants} {p e : EntityId} {kinds : PermissionSet} :
    (g.grant p e kinds).1 = true ↔ g.lookup p e ∪ kinds ≠ g.lookup p e := by
  rw [grant]
  split
  · next h => simp [PermissionSet.isEmpty_iff.mp h]
  · simp only [bne_iff_ne]
    exact ne_comm

/-! ## Revoking -/

theorem getElem?_revoke (g : Grants) (p e : EntityId) (kinds : PermissionSet) (key : GrantKey) :
    (g.revoke p e kinds).2.rows[key]? =
      if key = ⟨p, e⟩ then (g.rows[key]?).bind fun held =>
        if held \ kinds = ∅ then none else some (held \ kinds)
      else g.rows[key]? := by
  rw [revoke]
  split
  · next hrow =>
    by_cases hk : key = ⟨p, e⟩
    · simp [hk, hrow]
    · simp [hk]
  · next before hrow =>
    by_cases hk : key = ⟨p, e⟩
    · subst hk
      by_cases hempty : before \ kinds = ∅ <;> simp [hrow, hempty, PermissionSet.isEmpty]
    · have hne : compare (⟨p, e⟩ : GrantKey) key ≠ .eq := fun heq =>
        hk (compare_eq_iff_eq.mp heq).symm
      by_cases hempty : before \ kinds = ∅ <;>
        simp [hk, hne, hempty, PermissionSet.isEmpty, ExtTreeMap.getElem?_erase,
          ExtTreeMap.getElem?_insert]

theorem lookup_revoke (g : Grants) (p e q f : EntityId) (kinds : PermissionSet) :
    (g.revoke p e kinds).2.lookup q f =
      if p = q ∧ e = f then g.lookup p e \ kinds else g.lookup q f := by
  rw [lookup_eq, getElem?_revoke]
  by_cases h : p = q ∧ e = f
  · obtain ⟨rfl, rfl⟩ := h
    rw [lookup_eq]
    cases g.rows[(⟨p, e⟩ : GrantKey)]? with
    | none => simp
    | some held => by_cases hempty : held \ kinds = ∅ <;> simp [hempty]
  · have hne : (⟨q, f⟩ : GrantKey) ≠ ⟨p, e⟩ := by
      rintro ⟨⟩
      exact h ⟨rfl, rfl⟩
    simp [hne, h, lookup_eq]

/-- A change is reported if the pair holds something else afterwards. -/
theorem revoke_changes_iff {g : Grants} {p e : EntityId} {kinds : PermissionSet} :
    (g.revoke p e kinds).1 = true ↔ g.lookup p e \ kinds ≠ g.lookup p e := by
  rw [revoke, lookup_eq]
  split
  · next hrow => simp [hrow]
  · next before hrow =>
    rw [hrow, Option.getD_some, bne_iff_ne]
    exact ne_comm

/-! ## Removing an entity -/

theorem getElem?_foldl_erase (keys : List GrantKey) (rows : ExtTreeMap GrantKey PermissionSet)
    (key : GrantKey) : (keys.foldl (fun rows key => rows.erase key) rows)[key]? =
      if key ∈ keys then none else rows[key]? := by
  induction keys generalizing rows with
  | nil => simp
  | cons removed keys ih =>
    rw [List.foldl_cons, ih, ExtTreeMap.getElem?_erase]
    by_cases h : removed = key
    · simp [h]
    · have hne : compare removed key ≠ .eq := fun heq => h (compare_eq_iff_eq.mp heq)
      simp [hne, Ne.symm h]

theorem rows_removeEntity (g : Grants) (id : EntityId) :
    (g.removeEntity id).2.rows = g.rows.filter fun key _ => !key.mentions id := by
  apply ExtTreeMap.ext_getElem?
  intro key
  simp only [removeEntity, getElem?_foldl_erase, ExtTreeMap.getElem?_filter', List.mem_filter,
    ExtTreeMap.mem_keys, ExtTreeMap.mem_iff_isSome_getElem?]
  cases g.rows[key]? with
  | none => simp
  | some held => cases h : key.mentions id <;> simp [Option.filter]

theorem lookup_removeEntity (g : Grants) (id q f : EntityId) :
    (g.removeEntity id).2.lookup q f = if q = id ∨ f = id then ∅ else g.lookup q f := by
  rw [lookup_eq, lookup_eq, rows_removeEntity, ExtTreeMap.getElem?_filter']
  cases h : g.rows[(⟨q, f⟩ : GrantKey)]? with
  | none => simp
  | some held =>
    by_cases hq : q = id <;> by_cases hf : f = id <;>
      simp [GrantKey.mentions, Option.filter, hq, hf]

theorem mem_removed {g : Grants} {id : EntityId} {key : GrantKey} :
    key ∈ (g.removeEntity id).1 ↔
      (key.principal = id ∨ key.entity = id) ∧ ∃ held, g.rows[key]? = some held := by
  rw [removeEntity, List.mem_filter, ExtTreeMap.mem_keys,
    ExtTreeMap.mem_iff_isSome_getElem?, Option.isSome_iff_exists, and_comm]
  simp [GrantKey.mentions]

end Grants
end PermissionGraph
