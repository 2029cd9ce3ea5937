import PermissionGraph.Memo.Basic

/-!
# PermissionGraph.Memo.Shared

The memo that all transactions share. It is in step with one committed version, the latest, and
serves only those who read that version.
-/

namespace PermissionGraph

/-- Resolved permissions valid for one committed version. -/
structure SharedMemo where
  version : Nat := 0
  memo : Memo := ∅
  deriving DecidableEq

namespace SharedMemo

instance : EmptyCollection SharedMemo := ⟨{}⟩
instance : Inhabited SharedMemo := ⟨∅⟩

/-- The entry of a key, for a reader of the given version. -/
def get? (s : SharedMemo) (version : Nat) (key : MemoKey) : Option MemoEntry :=
  if s.version = version then s.memo.get? key else none

/-- Takes over what was resolved on a version, unless a later version was committed since. -/
def promote (s : SharedMemo) (version : Nat) (resolved : Memo) : SharedMemo :=
  if s.version = version then { s with memo := s.memo.merge resolved } else s

/-- Moves on to a new version: drops what its changes could have altered, then takes over what was
resolved on the new version itself. -/
def commit (s : SharedMemo) (changes : List Change) (version : Nat) (resolved : Memo) :
    SharedMemo :=
  { version, memo := (s.memo.applyAll changes).merge resolved }

theorem get?_of_ne {s : SharedMemo} {version : Nat} (h : s.version ≠ version) (key : MemoKey) :
    s.get? version key = none := by
  simp [get?, h]

@[simp] theorem get?_version (s : SharedMemo) (key : MemoKey) :
    s.get? s.version key = s.memo.get? key := by
  simp [get?]

theorem promote_of_ne {s : SharedMemo} {version : Nat} (h : s.version ≠ version)
    (resolved : Memo) : s.promote version resolved = s := by
  simp [promote, h]

end SharedMemo
end PermissionGraph
