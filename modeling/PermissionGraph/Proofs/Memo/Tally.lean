import Mathlib.Algebra.Ring.Nat
import Mathlib.Data.List.Basic
import PermissionGraph.Proofs.Memo.Index

/-!
# PermissionGraph.Proofs.Memo.Tally

Memos after any calls, and what changes cost them. The index of a memo is exact whatever was done to
it, so a change drops the entries it could have altered and no others. What is reported as dropped
is what is gone: an entry that depends on several of the entities that a change touches is counted
once, when the first of them is forgotten.

* `fst_apply_add_size`: what a change is said to drop and what is left of a memo make up the memo.
* `length_lost_add_size`: so do the keys that are lost and what is left.
* `exact_after`: the index, the entries left by changes, and their number, after any calls.
-/

namespace PermissionGraph

open Std

namespace Memo

variable {m left : Memo} {key : MemoKey} {id : EntityId} {entry : MemoEntry} {change : Change}

/-! ## Counting -/

theorem size_remove (h : key ∈ m.entries) : (m.remove key).size + 1 = m.size := by
  obtain ⟨entry, hentry⟩ := Option.isSome_iff_exists.mp (ExtTreeMap.mem_iff_isSome_getElem?.mp h)
  have hsize : (m.remove key).size = (m.entries.erase key).size := by
    rw [size, remove, hentry]
  have hpos : m.entries.size ≠ 0 :=
    mt ExtTreeMap.eq_empty_iff_size_eq_zero.mpr (ExtTreeMap.ne_empty_of_mem h)
  rw [hsize, ExtTreeMap.size_erase, if_pos (ExtTreeMap.contains_iff_mem.mpr h), size]
  omega

/-- Whatever has been counted, dropping one more entry moves it from the memo to the count. -/
theorem fst_removeCounted_add_size (counted : Nat × Memo) (key : MemoKey) :
    (removeCounted counted key).1 + (removeCounted counted key).2.size =
      counted.1 + counted.2.size := by
  rw [removeCounted]
  split
  · next h =>
    have hsize := size_remove (ExtTreeMap.contains_iff_mem.mp h)
    dsimp only
    omega
  · rfl

theorem fst_foldl_removeCounted_add_size (keys : List MemoKey) (counted : Nat × Memo) :
    (keys.foldl removeCounted counted).1 + (keys.foldl removeCounted counted).2.size =
      counted.1 + counted.2.size := by
  induction keys generalizing counted with
  | nil => rfl
  | cons key keys ih => rw [List.foldl_cons, ih, fst_removeCounted_add_size]

theorem fst_forget_add_size (m : Memo) (id : EntityId) :
    (m.forget id).1 + (m.forget id).2.size = m.size := by
  rw [forget_eq, fst_foldl_removeCounted_add_size]
  exact Nat.zero_add _

/-- Drops the entries that depend on one more entity, adding to what has been counted. -/
def forgetCounted (counted : Nat × Memo) (id : EntityId) : Nat × Memo :=
  (counted.1 + (counted.2.forget id).1, (counted.2.forget id).2)

theorem forgetAll_eq (m : Memo) (ids : List EntityId) :
    m.forgetAll ids = ids.foldl forgetCounted (0, m) := rfl

theorem fst_foldl_forgetCounted_add_size (ids : List EntityId) (counted : Nat × Memo) :
    (ids.foldl forgetCounted counted).1 + (ids.foldl forgetCounted counted).2.size =
      counted.1 + counted.2.size := by
  induction ids generalizing counted with
  | nil => rfl
  | cons id ids ih =>
    have hforget := fst_forget_add_size counted.2 id
    rw [List.foldl_cons, ih, forgetCounted]
    dsimp only
    omega

/-- What a change is said to drop and what is left make up the memo. -/
theorem fst_apply_add_size (m : Memo) (change : Change) :
    (m.apply change).1 + (m.apply change).2.size = m.size := by
  rw [apply]
  split
  · have hempty : (∅ : Memo).size = 0 := rfl
    rw [hempty]
    rfl
  · rw [forgetAll_eq, fst_foldl_forgetCounted_add_size]
    exact Nat.zero_add _

/-- What each of some changes is said to drop, applied in turn. -/
def counts (m : Memo) : List Change → List Nat
  | [] => []
  | change :: changes => (m.apply change).1 :: (m.apply change).2.counts changes

theorem sum_counts_add_size (m : Memo) (changes : List Change) :
    (m.counts changes).sum + (m.applyAll changes).size = m.size := by
  induction changes generalizing m with
  | nil => exact Nat.zero_add _
  | cons change changes ih =>
    have hrest := ih (m.apply change).2
    have happly := fst_apply_add_size m change
    rw [counts, List.sum_cons]
    have hall : m.applyAll (change :: changes) = (m.apply change).2.applyAll changes := rfl
    rw [hall]
    omega

/-- The keys of the entries that are in one memo and no longer in another. -/
def lost (m left : Memo) : List MemoKey :=
  m.entries.keys.filter fun key => (left.get? key).isNone

theorem length_lost_add_size
    (h : ∀ key entry, left.get? key = some entry → m.get? key = some entry) :
    (m.lost left).length + left.size = m.size := by
  have hkept : (m.entries.keys.filter fun key => !(left.get? key).isNone).Perm
      left.entries.keys := by
    refine (List.perm_ext_iff_of_nodup (m.entries.nodup_keys.filter _)
      left.entries.nodup_keys).mpr fun key => ?_
    rw [List.mem_filter, ExtTreeMap.mem_keys, ExtTreeMap.mem_keys,
      ExtTreeMap.mem_iff_isSome_getElem?, ExtTreeMap.mem_iff_isSome_getElem?]
    constructor
    · rintro ⟨_, hleft⟩
      simpa [get?] using hleft
    · intro hleft
      obtain ⟨entry, hentry⟩ := Option.isSome_iff_exists.mp hleft
      have hbefore : m.entries[key]? = some entry := h key entry hentry
      refine ⟨by rw [hbefore]; rfl, ?_⟩
      rw [get?, hentry]
      rfl
  have hsplit := List.length_eq_length_filter_add (l := m.entries.keys)
    fun key => (left.get? key).isNone
  rw [hkept.length_eq, ExtTreeMap.length_keys, ExtTreeMap.length_keys] at hsplit
  exact hsplit.symm

/-! ## Calls -/

/-- A call that may change a memo. -/
inductive Edit where
  | insert (key : MemoKey) (entry : MemoEntry)
  | forget (id : EntityId)
  | apply (change : Change)
  | merge (other : Memo)
  | clear

def Edit.run (m : Memo) : Edit → Memo
  | insert key entry => m.insert key entry
  | forget id => (m.forget id).2
  | apply change => (m.apply change).2
  | merge other => m.merge other
  | clear => ∅

theorem Indexed.run (h : m.Indexed) (edit : Edit) : (edit.run m).Indexed := by
  cases edit with
  | insert key entry => exact h.insert
  | forget id => exact h.forget
  | apply change => exact h.apply
  | merge other => exact h.merge
  | clear => exact indexed_empty

/-- The memo after some calls, beginning with an empty one. -/
def after (edits : List Edit) : Memo := edits.foldl Edit.run ∅

theorem Indexed.foldl_run (h : m.Indexed) (edits : List Edit) :
    (edits.foldl Edit.run m).Indexed :=
  List.foldlRecOn edits Edit.run h fun _ hm edit _ => hm.run edit

theorem get?_applyAll_eq_some_iff {changes : List Change} (h : m.Indexed) :
    (m.applyAll changes).get? key = some entry ↔ m.get? key = some entry ∧ .rules ∉ changes ∧
      ∀ change ∈ changes, ∀ id ∈ change.touched, id ∉ entry.dependsOn := by
  rw [get?_applyAll h, Option.filter_eq_some_iff, List.all_eq_true]
  simp only [MemoEntry.outlives_iff]
  refine and_congr_right fun _ => ⟨fun hall => ⟨fun hrules => ?_, ?_⟩, ?_⟩
  · exact (hall .rules hrules).1 rfl
  · exact fun change hchange => (hall change hchange).2
  · rintro ⟨hrules, hall⟩ change hchange
    refine ⟨?_, hall change hchange⟩
    rintro rfl
    exact hrules hchange

theorem sum_counts {changes : List Change} (h : m.Indexed) :
    (m.counts changes).sum = (m.lost (m.applyAll changes)).length := by
  have hkept : ∀ key entry, (m.applyAll changes).get? key = some entry →
      m.get? key = some entry := fun key entry he => ((get?_applyAll_eq_some_iff h).mp he).1
  have hlost := length_lost_add_size hkept
  have hsum := sum_counts_add_size m changes
  omega

/-- After any calls the index of a memo lists, for every entity, the entries that depend on it, and
no entity without an entry. So some changes leave the entries that depend on nothing they touch,
unchanged, and none if the rules changed; and together they are said to drop as many as are gone. -/
theorem exact_after (edits : List Edit) :
    (∀ id key, key ∈ (after edits).dependents.getD id ∅ ↔
      ∃ entry, (after edits).get? key = some entry ∧ id ∈ entry.dependsOn) ∧
    (∀ (id : EntityId) (keys : ExtTreeSet MemoKey),
      (after edits).dependents[id]? = some keys → keys ≠ ∅) ∧
    ∀ changes : List Change,
      (∀ key entry, ((after edits).applyAll changes).get? key = some entry ↔
        (after edits).get? key = some entry ∧ .rules ∉ changes ∧
          ∀ change ∈ changes, ∀ id ∈ change.touched, id ∉ entry.dependsOn) ∧
      ((after edits).counts changes).sum =
        ((after edits).lost ((after edits).applyAll changes)).length := by
  have hindexed : (after edits).Indexed := indexed_empty.foldl_run edits
  refine ⟨fun id key => ?_, hindexed.filled, fun changes => ⟨fun key entry => ?_, ?_⟩⟩
  · rw [hindexed.mem_iff, true_and, DependsOn]
  · exact get?_applyAll_eq_some_iff hindexed
  · exact sum_counts hindexed

-- A relationship from an entity to itself touches the entity twice, and an entry may depend on all
-- that a change touches: it is dropped once.
example :
    let key : MemoKey := ⟨.user ⟨1⟩, ⟨2⟩⟩
    let m := after [.insert key ⟨.full, {⟨1⟩, ⟨2⟩}⟩, .insert key ⟨∅, {⟨2⟩, ⟨3⟩}⟩,
      .insert ⟨.anonymous, ⟨4⟩⟩ ⟨∅, {⟨4⟩}⟩]
    m.counts [.entity ⟨1⟩, .relationship ⟨3⟩ ⟨2⟩ ⟨2⟩, .rules] = [0, 1, 1] := by
  decide +kernel

end Memo
end PermissionGraph
