import PermissionGraph.Memo.Local
import PermissionGraph.Proofs.Order.Fold

/-!
# PermissionGraph.Proofs.Memo.Index

What is left of a memo after changes. A memo is indexed (`Memo.Indexed`) when its index names, for
every entity, exactly the entries that depend on it. Every operation on memos keeps it so.

* `get?_forget`, `get?_apply`, `get?_applyAll`: the entries left are those that do not depend on
  anything a change touches, unchanged.
* `get?_merge`: what is taken over replaces what was there.
-/

namespace PermissionGraph

open Std

namespace Dependents

variable {key k : MemoKey} {index : Dependents} {id x : EntityId}

/-- No entity is listed without an entry that depends on it. -/
def Filled (index : Dependents) : Prop :=
  ∀ (id : EntityId) (keys : ExtTreeSet MemoKey), index[id]? = some keys → keys ≠ ∅

theorem filled_empty : Filled ∅ := by
  intro id keys h
  simp at h

theorem mem_link : k ∈ (link key index id).getD x ∅ ↔ k ∈ index.getD x ∅ ∨ key = k ∧ id = x := by
  rw [link, ExtTreeMap.getD_insert]
  by_cases h : id = x
  · subst h
    simp [or_comm]
  · simp [h]

theorem filled_link (h : index.Filled) : (link key index id).Filled := by
  intro x keys hx
  rw [link, ExtTreeMap.getElem?_insert] at hx
  split at hx
  · injection hx with hx
    subst hx
    simp
  · exact h x keys hx

theorem mem_unlink :
    k ∈ (unlink key index id).getD x ∅ ↔ k ∈ index.getD x ∅ ∧ ¬ (key = k ∧ id = x) := by
  rw [unlink]
  cases hid : index[id]? with
  | none =>
    by_cases h : id = x
    · subst h
      simp [ExtTreeMap.getD_eq_getD_getElem?, hid]
    · simp [h]
  | some keys =>
    by_cases h : id = x
    · subst h
      have hkeys : index.getD id ∅ = keys := by simp [ExtTreeMap.getD_eq_getD_getElem?, hid]
      rw [hkeys]
      by_cases hempty : (keys.erase key).isEmpty = true
      · have hnone : k ∉ keys.erase key := by
          rw [ExtTreeSet.isEmpty_iff] at hempty
          simp [hempty]
        simp only [hempty, if_true, ExtTreeMap.getD_erase]
        rw [ExtTreeSet.mem_erase] at hnone
        simpa [and_comm] using hnone
      · simp [hempty, ExtTreeSet.mem_erase, and_comm]
    · by_cases hempty : (keys.erase key).isEmpty = true
      · simp [hempty, ExtTreeMap.getD_erase, h]
      · simp [hempty, ExtTreeMap.getD_insert, h]

theorem filled_unlink (h : index.Filled) : (unlink key index id).Filled := by
  rw [unlink]
  cases hid : index[id]? with
  | none => exact h
  | some keys =>
    by_cases hempty : (keys.erase key).isEmpty = true
    · simp only [hempty, if_true]
      intro x rest hx
      rw [ExtTreeMap.getElem?_erase] at hx
      split at hx
      · cases hx
      · exact h x rest hx
    · simp only [hempty]
      intro x rest hx
      rw [if_neg (by simp), ExtTreeMap.getElem?_insert] at hx
      split at hx
      · injection hx with hx
        rw [← hx]
        intro he
        rw [he] at hempty
        simp at hempty
      · exact h x rest hx

theorem filled_erase (h : index.Filled) : Filled (index.erase id) := by
  intro x keys hx
  rw [ExtTreeMap.getElem?_erase] at hx
  split at hx
  · cases hx
  · exact h x keys hx

theorem mem_foldl_link {deps : EntitySet} :
    k ∈ (deps.foldl (link key) index).getD x ∅ ↔ k ∈ index.getD x ∅ ∨ key = k ∧ x ∈ deps := by
  rw [ExtTreeSet.foldl_eq_foldl_toList, ← ExtTreeSet.mem_toList (t := deps)]
  generalize deps.toList = l
  induction l generalizing index with
  | nil => simp
  | cons a l ih =>
    rw [List.foldl_cons, ih, mem_link, List.mem_cons, eq_comm (a := x), or_assoc, ← and_or_left]

theorem filled_foldl_link {deps : EntitySet} (h : index.Filled) :
    (deps.foldl (link key) index).Filled := by
  rw [ExtTreeSet.foldl_eq_foldl_toList]
  generalize deps.toList = l
  induction l generalizing index with
  | nil => exact h
  | cons a l ih => exact ih (filled_link h)

theorem mem_foldl_unlink {deps : EntitySet} :
    k ∈ (deps.foldl (unlink key) index).getD x ∅ ↔
      k ∈ index.getD x ∅ ∧ ¬ (key = k ∧ x ∈ deps) := by
  rw [ExtTreeSet.foldl_eq_foldl_toList, ← ExtTreeSet.mem_toList (t := deps)]
  generalize deps.toList = l
  induction l generalizing index with
  | nil => simp
  | cons a l ih =>
    rw [List.foldl_cons, ih, mem_unlink, List.mem_cons, eq_comm (a := x), and_assoc, ← not_or,
      ← and_or_left]

theorem filled_foldl_unlink {deps : EntitySet} (h : index.Filled) :
    (deps.foldl (unlink key) index).Filled := by
  rw [ExtTreeSet.foldl_eq_foldl_toList]
  generalize deps.toList = l
  induction l generalizing index with
  | nil => exact h
  | cons a l ih => exact ih (filled_unlink h)

end Dependents

/-- The only change that touches no entity is the one after which everything is dropped. -/
theorem Change.affectsAll_iff {c : Change} : c.affectsAll = true ↔ c = .rules := by
  cases c <;> simp [affectsAll]

theorem filter_true {α : Type} {o : Option α} : (o.filter fun _ => true) = o := by
  cases o <;> rfl

/-- Whether an entry is kept when a change is noted. -/
def MemoEntry.outlives (e : MemoEntry) (change : Change) : Bool :=
  !change.affectsAll && change.touched.all fun id => id ∉ e.dependsOn

theorem MemoEntry.outlives_iff {e : MemoEntry} {change : Change} :
    e.outlives change = true ↔ change ≠ .rules ∧ ∀ id ∈ change.touched, id ∉ e.dependsOn := by
  rw [Ne, ← Change.affectsAll_iff]
  simp [outlives]

namespace Memo

variable {m other : Memo} {key k : MemoKey} {id : EntityId} {e : MemoEntry}
  {P : EntityId → Prop}

/-- Whether an entry depends on an entity. -/
def DependsOn (m : Memo) (key : MemoKey) (id : EntityId) : Prop :=
  ∃ e, m.get? key = some e ∧ id ∈ e.dependsOn

/-- The index names the entries that depend on an entity, for the entities of which `P` holds, and
none for the others. -/
structure IndexedOn (m : Memo) (P : EntityId → Prop) : Prop where
  mem_iff : ∀ {id : EntityId} {key : MemoKey},
    key ∈ m.dependents.getD id ∅ ↔ P id ∧ m.DependsOn key id
  filled : m.dependents.Filled

/-- The index names exactly the entries that depend on an entity. -/
def Indexed (m : Memo) : Prop := m.IndexedOn fun _ => True

theorem indexed_empty : (∅ : Memo).Indexed where
  mem_iff {id key} := by
    have hindex : (∅ : Memo).dependents = ∅ := rfl
    simp [DependsOn, hindex]
  filled := Dependents.filled_empty

/-! ## Keeping entries -/

theorem dependsOn_remove {x : EntityId} :
    (m.remove key).DependsOn k x ↔ m.DependsOn k x ∧ key ≠ k := by
  constructor
  · rintro ⟨e, he, hx⟩
    rw [get?_remove] at he
    split at he
    · cases he
    · next hne => exact ⟨⟨e, he, hx⟩, hne⟩
  · rintro ⟨⟨e, he, hx⟩, hne⟩
    refine ⟨e, ?_, hx⟩
    rw [get?_remove, if_neg hne, he]

theorem IndexedOn.remove (h : m.IndexedOn P) : (m.remove key).IndexedOn P := by
  cases he : m.entries[key]? with
  | none =>
    have hm : m.remove key = m := by simp [Memo.remove, he]
    rwa [hm]
  | some entry =>
    have hdep : (m.remove key).dependents =
        entry.dependsOn.foldl (Dependents.unlink key) m.dependents := by
      simp [Memo.remove, he]
    constructor
    · intro x k
      rw [hdep, Dependents.mem_foldl_unlink, h.mem_iff, dependsOn_remove]
      constructor
      · rintro ⟨⟨hP, hd⟩, hnot⟩
        refine ⟨hP, hd, ?_⟩
        rintro rfl
        obtain ⟨e, hget, hx⟩ := hd
        rw [get?, he] at hget
        cases hget
        exact hnot ⟨rfl, hx⟩
      · rintro ⟨hP, hd, hne⟩
        exact ⟨⟨hP, hd⟩, fun hk => hne hk.1⟩
    · rw [hdep]
      exact Dependents.filled_foldl_unlink h.filled

theorem Indexed.insert (h : m.Indexed) : (m.insert key e).Indexed := by
  have hr : (m.remove key).Indexed := IndexedOn.remove h
  have hdep : (m.insert key e).dependents =
      e.dependsOn.foldl (Dependents.link key) (m.remove key).dependents := rfl
  constructor
  · intro x k
    rw [hdep, Dependents.mem_foldl_link, hr.mem_iff, dependsOn_remove]
    constructor
    · rintro (⟨_, ⟨e', he', hx⟩, hne⟩ | ⟨rfl, hx⟩)
      · refine ⟨trivial, e', ?_, hx⟩
        rw [get?_insert, if_neg hne, he']
      · refine ⟨trivial, e, ?_, hx⟩
        rw [get?_insert, if_pos rfl]
    · rintro ⟨_, e', he', hx⟩
      rw [get?_insert] at he'
      split at he'
      · next heq =>
        injection he' with he'
        rw [← he'] at hx
        exact .inr ⟨heq, hx⟩
      · next hne => exact .inl ⟨trivial, ⟨e', he', hx⟩, hne⟩
  · rw [hdep]
    exact Dependents.filled_foldl_link hr.filled

theorem get?_merge : (m.merge other).get? key = (other.get? key).or (m.get? key) := by
  have hput : ∀ (s : Memo) (k : MemoKey) (v : MemoEntry) (other : MemoKey),
      (s.insert k v).get? other = if k = other then some (id v) else s.get? other :=
    fun s k v other => get?_insert s k other v
  rw [merge, get_foldl hput, Option.map_id]
  rfl

theorem Indexed.merge (h : m.Indexed) : (m.merge other).Indexed := by
  rw [Memo.merge, ExtTreeMap.foldl_eq_foldl_toList]
  generalize other.entries.toList = l
  induction l generalizing m with
  | nil => exact h
  | cons p l ih => exact ih h.insert

/-! ## Dropping entries -/

theorem get?_removeCounted (counted : Nat × Memo) :
    (removeCounted counted key).2.get? k = if key = k then none else counted.2.get? k := by
  rw [removeCounted]
  split
  · exact get?_remove _ _ _
  · next h =>
    split
    · next hk =>
      subst hk
      simpa [get?] using h
    · rfl

theorem IndexedOn.removeCounted {counted : Nat × Memo} (h : counted.2.IndexedOn P) :
    (removeCounted counted key).2.IndexedOn P := by
  rw [Memo.removeCounted]
  split
  · exact h.remove
  · exact h

theorem get?_foldl_removeCounted {l : List MemoKey} (counted : Nat × Memo) :
    (l.foldl removeCounted counted).2.get? k = if k ∈ l then none else counted.2.get? k := by
  induction l generalizing counted with
  | nil => simp
  | cons a l ih =>
    rw [List.foldl_cons, ih, get?_removeCounted]
    by_cases hk : k ∈ l
    · simp [hk]
    · by_cases ha : a = k
      · simp [ha]
      · have ha' : ¬ k = a := fun e => ha e.symm
        simp [hk, ha, ha']

theorem IndexedOn.foldl_removeCounted {l : List MemoKey} {counted : Nat × Memo}
    (h : counted.2.IndexedOn P) : (l.foldl Memo.removeCounted counted).2.IndexedOn P := by
  induction l generalizing counted with
  | nil => exact h
  | cons a l ih => exact ih h.removeCounted

theorem forget_eq (m : Memo) (id : EntityId) :
    m.forget id = (m.dependents.getD id ∅).toList.foldl removeCounted
      (0, { m with dependents := m.dependents.erase id }) := by
  rw [forget]
  cases hid : m.dependents[id]? with
  | none =>
    have herase : m.dependents.erase id = m.dependents := by
      apply ExtTreeMap.ext_getElem?
      intro x
      rw [ExtTreeMap.getElem?_erase]
      split
      · next hx =>
        rw [Std.compare_eq_iff_eq] at hx
        rw [← hx, hid]
      · rfl
    have hempty : (∅ : ExtTreeSet MemoKey).toList = [] := rfl
    simp [ExtTreeMap.getD_eq_getD_getElem?, hid, herase, hempty]
  | some keys =>
    simp only [ExtTreeMap.getD_eq_getD_getElem?, hid]
    rw [ExtTreeSet.foldl_eq_foldl_toList]
    rfl

/-- What is left when an entity is forgotten. -/
theorem get?_forget (h : m.Indexed) :
    (m.forget id).2.get? key = (m.get? key).filter fun e => id ∉ e.dependsOn := by
  rw [forget_eq, get?_foldl_removeCounted]
  have hget : ({ m with dependents := m.dependents.erase id } : Memo).get? key = m.get? key := rfl
  have hmem : key ∈ (m.dependents.getD id ∅).toList ↔ m.DependsOn key id := by
    rw [ExtTreeSet.mem_toList, h.mem_iff, true_and]
  rw [hget]
  by_cases hd : m.DependsOn key id
  · obtain ⟨e, he, hid⟩ := hd
    rw [if_pos (hmem.mpr ⟨e, he, hid⟩), he]
    simp [Option.filter, hid]
  · rw [if_neg (mt hmem.mp hd)]
    cases he : m.get? key with
    | none => rfl
    | some e =>
      have hid : id ∉ e.dependsOn := fun hid => hd ⟨e, he, hid⟩
      simp [Option.filter, hid]

/-- The row of the entity is taken out first and its entries then one by one, so in between the
index is right about all entities but this one. -/
theorem Indexed.forget (h : m.Indexed) : (m.forget id).2.Indexed := by
  have hout : (m.forget id).2.IndexedOn (· ≠ id) := by
    rw [forget_eq]
    apply IndexedOn.foldl_removeCounted
    constructor
    · intro x k
      have hiff : k ∈ m.dependents.getD x ∅ ↔ True ∧ m.DependsOn k x := h.mem_iff
      show k ∈ (m.dependents.erase id).getD x ∅ ↔ x ≠ id ∧ m.DependsOn k x
      rw [ExtTreeMap.getD_erase]
      by_cases hx : id = x
      · subst hx
        simp
      · have hx' : x ≠ id := fun e => hx e.symm
        rw [if_neg (mt Std.compare_eq_iff_eq.mp hx), hiff, true_and]
        exact ⟨fun hd => ⟨hx', hd⟩, And.right⟩
    · exact Dependents.filled_erase h.filled
  constructor
  · intro x k
    rw [hout.mem_iff]
    constructor
    · rintro ⟨_, hd⟩
      exact ⟨trivial, hd⟩
    · rintro ⟨_, hd⟩
      refine ⟨?_, hd⟩
      rintro rfl
      obtain ⟨e, he, hx⟩ := hd
      rw [get?_forget h, Option.filter_eq_some_iff] at he
      simp [hx] at he
  · exact hout.filled

theorem get?_forgetAll {ids : List EntityId} (h : m.Indexed) :
    (m.forgetAll ids).2.get? key =
      (m.get? key).filter fun e => ids.all fun id => id ∉ e.dependsOn := by
  rw [forgetAll]
  generalize 0 = n
  induction ids generalizing n m with
  | nil => exact filter_true.symm
  | cons id ids ih =>
    rw [List.foldl_cons]
    show (List.foldl _ (n + (m.forget id).1, (m.forget id).2) ids).2.get? key = _
    rw [ih h.forget, get?_forget h, Option.filter_filter]
    simp

theorem Indexed.forgetAll {ids : List EntityId} (h : m.Indexed) : (m.forgetAll ids).2.Indexed := by
  rw [Memo.forgetAll]
  generalize 0 = n
  induction ids generalizing n m with
  | nil => exact h
  | cons id ids ih => exact ih h.forget _

/-- What is left when a change is noted. -/
theorem get?_apply {change : Change} (h : m.Indexed) :
    (m.apply change).2.get? key = (m.get? key).filter (·.outlives change) := by
  rw [apply]
  cases ha : change.affectsAll with
  | true =>
    have hnone : (m.get? key).filter (·.outlives change) = none := by
      cases m.get? key <;> simp [Option.filter, MemoEntry.outlives, ha]
    rw [hnone]
    exact get?_empty key
  | false =>
    show (m.forgetAll change.touched).2.get? key = _
    rw [get?_forgetAll h]
    simp [MemoEntry.outlives, ha]

theorem Indexed.apply {change : Change} (h : m.Indexed) : (m.apply change).2.Indexed := by
  rw [Memo.apply]
  split
  · exact indexed_empty
  · exact h.forgetAll

theorem get?_applyAll {changes : List Change} (h : m.Indexed) :
    (m.applyAll changes).get? key =
      (m.get? key).filter fun e => changes.all (e.outlives ·) := by
  rw [applyAll]
  induction changes generalizing m with
  | nil => exact filter_true.symm
  | cons change changes ih =>
    rw [List.foldl_cons, ih h.apply, get?_apply h, Option.filter_filter]
    simp [Bool.and_comm]

theorem Indexed.applyAll {changes : List Change} (h : m.Indexed) :
    (m.applyAll changes).Indexed := by
  rw [Memo.applyAll]
  induction changes generalizing m with
  | nil => exact h
  | cons change changes ih => exact ih h.apply

end Memo
end PermissionGraph
