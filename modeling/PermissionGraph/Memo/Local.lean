import PermissionGraph.Memo.Shared

/-!
# PermissionGraph.Memo.Local

The memo of one transaction. Until the transaction writes for the first time it also reads the
shared memo, at the version the transaction started from; the shared memo knows nothing of the
writes, so from then on it is passed over.
-/

namespace PermissionGraph

/-- Resolved permissions that only one transaction sees. -/
structure LocalMemo where
  memo : Memo := ∅
  /-- The version at which the shared memo may be read, if there is a shared memo. -/
  sharedVersion : Option Nat := none
  isDirty : Bool := false
  deriving DecidableEq

namespace LocalMemo

instance : EmptyCollection LocalMemo := ⟨{}⟩
instance : Inhabited LocalMemo := ⟨∅⟩

/-- An empty memo that reads the shared memo at a version. -/
def reading (version : Nat) : LocalMemo := { sharedVersion := some version }

/-- The entry of a key, from the memo itself or, before the first write, from the shared memo. -/
def get? (m : LocalMemo) (shared : SharedMemo) (key : MemoKey) : Option MemoEntry :=
  match m.memo.get? key with
  | some entry => some entry
  | none => if m.isDirty then none else m.sharedVersion.bind (shared.get? · key)

def insert (m : LocalMemo) (key : MemoKey) (entry : MemoEntry) : LocalMemo :=
  { m with memo := m.memo.insert key entry }

/-- Notes a write: drops every entry that it could have altered, and says how many there were. -/
def invalidate (m : LocalMemo) (change : Change) : Nat × LocalMemo :=
  let (dropped, memo) := m.memo.apply change
  (dropped, { m with memo, isDirty := true })

/-- The number of entries, those of the shared memo not counted. -/
def size (m : LocalMemo) : Nat := m.memo.size

def isEmpty (m : LocalMemo) : Bool := m.memo.isEmpty

theorem get?_of_isDirty {m : LocalMemo} (h : m.isDirty = true) (shared : SharedMemo)
    (key : MemoKey) : m.get? shared key = m.memo.get? key := by
  cases hk : m.memo.get? key <;> simp [get?, h, hk]

theorem get?_insert (m : LocalMemo) (shared : SharedMemo) (key other : MemoKey)
    (entry : MemoEntry) :
    (m.insert key entry).get? shared other =
      if key = other then some entry else m.get? shared other := by
  by_cases h : key = other
  · simp [get?, insert, Memo.get?_insert, h]
  · simp only [get?, insert, Memo.get?_insert, if_neg h]
    rfl

@[simp] theorem isDirty_invalidate (m : LocalMemo) (change : Change) :
    (m.invalidate change).2.isDirty = true := rfl

@[simp] theorem memo_invalidate (m : LocalMemo) (change : Change) :
    (m.invalidate change).2.memo = (m.memo.apply change).2 := rfl

end LocalMemo
end PermissionGraph
