import PermissionGraph.Graph.Change
import PermissionGraph.Graph.Principal
import PermissionGraph.Permission.Set

/-!
# PermissionGraph.Memo.Basic

Resolved permissions that are kept for later. An entry carries the entities its permissions were
derived from, and a memo holds an index from each of those to the entries depending on it, so that
a change drops exactly the entries it could have altered. An entry is never an authority: dropping
one costs time only.

* `Memo.insert`, `Memo.merge`: keep entries.
* `Memo.forget`, `Memo.apply`: drop the entries that depend on an entity, or on what a change
  touches, and count them.
* `get?_insert`, `get?_remove`: what keeping and dropping one entry does to the others.
-/

namespace PermissionGraph

open Std

/-- For whom, and on which entity, permissions were resolved. -/
structure MemoKey where
  principal : Principal
  entity : EntityId
  deriving DecidableEq, Repr

namespace MemoKey

instance : Ord MemoKey := ⟨compareLex (compareOn principal) (compareOn entity)⟩

instance : TransOrd MemoKey :=
  inferInstanceAs (TransCmp (compareLex (compareOn principal) (compareOn entity)))

instance : LawfulEqOrd MemoKey where
  eq_of_compare {a b} h := by
    obtain ⟨h₁, h₂⟩ := compareBoth_eq_iff.mp h
    rw [compareOn_eq_iff] at h₁ h₂
    cases a; cases b; simp_all

end MemoKey

/-- Resolved permissions with the entities they were derived from. -/
structure MemoEntry where
  permissions : PermissionSet
  dependsOn : EntitySet
  deriving DecidableEq

abbrev Dependents := EntityMap (ExtTreeSet MemoKey)

namespace Dependents

/-- Notes that an entry depends on an entity. -/
def link (key : MemoKey) (index : Dependents) (id : EntityId) : Dependents :=
  index.insert id ((index.getD id ∅).insert key)

/-- Takes back that an entry depends on an entity. No empty set of entries is kept. -/
def unlink (key : MemoKey) (index : Dependents) (id : EntityId) : Dependents :=
  match index[id]? with
  | none => index
  | some keys =>
    let rest := keys.erase key
    if rest.isEmpty then index.erase id else index.insert id rest

end Dependents

/-- Resolved permissions with an index of what they depend on. -/
structure Memo where
  entries : ExtTreeMap MemoKey MemoEntry := ∅
  dependents : Dependents := ∅
  deriving DecidableEq

namespace Memo

instance : EmptyCollection Memo := ⟨{}⟩
instance : Inhabited Memo := ⟨∅⟩

def get? (m : Memo) (key : MemoKey) : Option MemoEntry := m.entries[key]?

def remove (m : Memo) (key : MemoKey) : Memo :=
  match m.entries[key]? with
  | none => m
  | some entry =>
    { entries := m.entries.erase key
      dependents := entry.dependsOn.foldl (Dependents.unlink key) m.dependents }

/-- Keeps an entry in place of the former one of its key. -/
def insert (m : Memo) (key : MemoKey) (entry : MemoEntry) : Memo :=
  let m := m.remove key
  { entries := m.entries.insert key entry
    dependents := entry.dependsOn.foldl (Dependents.link key) m.dependents }

/-- Drops the entry of a key, counting it if there is one. -/
def removeCounted (counted : Nat × Memo) (key : MemoKey) : Nat × Memo :=
  if counted.2.entries.contains key then (counted.1 + 1, counted.2.remove key) else counted

/-- Drops every entry that depends on an entity, and says how many there were. -/
def forget (m : Memo) (id : EntityId) : Nat × Memo :=
  match m.dependents[id]? with
  | none => (0, m)
  | some keys => keys.foldl removeCounted (0, { m with dependents := m.dependents.erase id })

/-- Drops every entry that depends on one of some entities, and says how many there were. -/
def forgetAll (m : Memo) (ids : List EntityId) : Nat × Memo :=
  ids.foldl (fun (dropped, m) id => let (n, m) := m.forget id; (dropped + n, m)) (0, m)

/-- Drops every entry that a change could have altered, and says how many there were. -/
def apply (m : Memo) (change : Change) : Nat × Memo :=
  if change.affectsAll then (m.entries.size, ∅) else m.forgetAll change.touched

/-- Drops every entry that some changes could have altered. -/
def applyAll (m : Memo) (changes : List Change) : Memo :=
  changes.foldl (fun m change => (m.apply change).2) m

def merge (m other : Memo) : Memo := other.entries.foldl insert m

def size (m : Memo) : Nat := m.entries.size

def isEmpty (m : Memo) : Bool := m.entries.isEmpty

@[simp] theorem get?_empty (key : MemoKey) : (∅ : Memo).get? key = none := by
  have h : (∅ : Memo).entries = ∅ := rfl
  simp [get?, h]

theorem get?_remove (m : Memo) (key other : MemoKey) :
    (m.remove key).get? other = if key = other then none else m.get? other := by
  cases h : m.entries[key]? with
  | none =>
    simp only [remove, get?, h]
    split
    · next e => rw [← e, h]
    · rfl
  | some entry => simp [remove, get?, h, ExtTreeMap.getElem?_erase]

theorem get?_insert (m : Memo) (key other : MemoKey) (entry : MemoEntry) :
    (m.insert key entry).get? other = if key = other then some entry else m.get? other := by
  have h := get?_remove m key other
  simp only [get?] at h ⊢
  simp only [insert, ExtTreeMap.getElem?_insert, Std.compare_eq_iff_eq, h]
  split <;> rfl

end Memo
end PermissionGraph
