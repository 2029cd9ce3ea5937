import Mathlib.Data.List.Basic
import Mathlib.Data.List.Induction
import PermissionGraph.Proofs.Memo.Index

/-!
# PermissionGraph.Proofs.Memo.History

What a memo answers, told from the calls made on it. An entry stands (`Stands`) when some call
contributed it for the key, no later call contributed another, and no change noted since is one it
could have been altered by. Neither memo of a transaction ever answers with anything else.

* `eq_some_iff_stands`: a look-up that starts with nothing and takes every call as it should finds
  the entry that stands.
* `SharedMemo.get?_after`, `LocalMemo.get?_after`: what the two memos hold after some calls.
* `LocalMemo.served_iff`: both put together, as a transaction reads them.
-/

namespace PermissionGraph

section History

variable {α : Type} {given : List α → α → Option MemoEntry} {noted : α → List Change}
  {calls : List α} {call : α} {entry : MemoEntry}

/-- An entry stands after some calls: one of them contributed it, none after it contributed one
again, and of the changes noted after it none is about the rules or touches an entity that the entry
depends on. What a call contributes may depend on the calls before it. -/
def Stands (given : List α → α → Option MemoEntry) (noted : α → List Change) (calls : List α)
    (entry : MemoEntry) : Prop :=
  ∃ before call after, calls = before ++ call :: after ∧ given before call = some entry ∧
    (∀ since later rest, after = since ++ later :: rest →
      given (before ++ call :: since) later = none) ∧
    ∀ later ∈ after, ∀ change ∈ noted later,
      change ≠ .rules ∧ ∀ id ∈ change.touched, id ∉ entry.dependsOn

/-- The last call either contributes the entry or leaves it standing. -/
theorem stands_concat : Stands given noted (calls ++ [call]) entry ↔
    given calls call = some entry ∨
      (given calls call = none ∧ Stands given noted calls entry ∧
        ∀ change ∈ noted call, change ≠ .rules ∧ ∀ id ∈ change.touched, id ∉ entry.dependsOn) := by
  constructor
  · rintro ⟨before, giver, after, heq, hgiven, hlast, hkept⟩
    obtain rfl | ⟨since, last, rfl⟩ := List.eq_nil_or_concat' after
    · obtain ⟨rfl, hcall⟩ := List.append_inj' heq rfl
      cases hcall
      exact .inl hgiven
    · rw [← List.cons_append, ← List.append_assoc] at heq
      obtain ⟨rfl, hcall⟩ := List.append_inj' heq rfl
      cases hcall
      refine .inr ⟨hlast since call [] rfl, ⟨before, giver, since, rfl, hgiven, ?_, ?_⟩, ?_⟩
      · intro since' later rest hsince
        exact hlast since' later (rest ++ [call]) (by rw [hsince]; simp)
      · exact fun later hlater => hkept later (List.mem_append_left _ hlater)
      · exact hkept call (by simp)
  · rintro (hgiven | ⟨hnone, ⟨before, giver, after, rfl, hgiven, hlast, hkept⟩, hcall⟩)
    · exact ⟨calls, call, [], rfl, hgiven, by simp, by simp⟩
    · refine ⟨before, giver, after ++ [call], by simp, hgiven, ?_, ?_⟩
      · intro since later rest heq
        obtain rfl | ⟨rest', last, rfl⟩ := List.eq_nil_or_concat' rest
        · obtain ⟨rfl, hlater⟩ := List.append_inj' heq rfl
          cases hlater
          exact hnone
        · rw [← List.cons_append, ← List.append_assoc] at heq
          exact hlast since later rest' (List.append_inj' heq rfl).1
      · intro later hlater
        rcases List.mem_append.mp hlater with hlater | hlater
        · exact hkept later hlater
        · rw [List.mem_singleton.mp hlater]
          exact hcall

/-- By induction on the calls, from the last one: what the memo holds of a key is what stands, if a
call puts what it contributes in place of what is left of the former entry. -/
theorem eq_some_iff_stands (held : List α → Option MemoEntry) (hnil : held [] = none)
    (hconcat : ∀ calls call, held (calls ++ [call]) =
      (given calls call).or ((held calls).filter fun e => (noted call).all (e.outlives ·))) :
    held calls = some entry ↔ Stands given noted calls entry := by
  induction calls using List.reverseRecOn generalizing entry with
  | nil => simp [hnil, Stands]
  | append_singleton calls call ih =>
    rw [hconcat, stands_concat, Option.or_eq_some_iff, Option.filter_eq_some_iff, ih]
    simp only [List.all_eq_true, MemoEntry.outlives_iff]

end History

namespace SharedMemo

/-- A call on the shared memo. -/
inductive Call where
  | promote (version : Nat) (resolved : Memo)
  | commit (changes : List Change) (version : Nat) (resolved : Memo)
  | get (version : Nat) (key : MemoKey)

namespace Call

def run (s : SharedMemo) : Call → SharedMemo
  | promote version resolved => s.promote version resolved
  | commit changes version resolved => s.commit changes version resolved
  | get .. => s

/-- The version that the call commits, if it commits one. -/
def committed? : Call → Option Nat
  | commit _ version _ => some version
  | promote .. | get .. => none

/-- The changes that the call tells of. -/
def noted : Call → List Change
  | commit changes .. => changes
  | promote .. | get .. => []

end Call

/-- The shared memo after some calls. -/
def after (calls : List Call) : SharedMemo := calls.foldl Call.run ∅

/-- The version of the latest commit. -/
def latest (calls : List Call) : Nat := (calls.filterMap Call.committed?).getLast?.getD 0

/-- The entry that a call contributes for a key: what is promoted counts only if it was resolved on
the latest version. -/
def given (key : MemoKey) (before : List Call) : Call → Option MemoEntry
  | .promote version resolved => if latest before = version then resolved.get? key else none
  | .commit _ _ resolved => resolved.get? key
  | .get .. => none

variable {calls : List Call} {key : MemoKey} {entry : MemoEntry} {version : Nat}

theorem after_concat (calls : List Call) (call : Call) :
    after (calls ++ [call]) = call.run (after calls) := by
  simp [after]

theorem latest_concat (calls : List Call) (call : Call) :
    latest (calls ++ [call]) = call.committed?.getD (latest calls) := by
  cases h : call.committed? <;> simp [latest, h]

theorem indexed_after (calls : List Call) : (after calls).memo.Indexed := by
  induction calls using List.reverseRecOn with
  | nil => exact Memo.indexed_empty
  | append_singleton calls call ih =>
    rw [after_concat]
    cases call with
    | promote version resolved =>
      rw [Call.run, promote]
      split
      · exact ih.merge
      · exact ih
    | commit changes version resolved => exact ih.applyAll.merge
    | get version key => exact ih

theorem version_after (calls : List Call) : (after calls).version = latest calls := by
  induction calls using List.reverseRecOn with
  | nil => rfl
  | append_singleton calls call ih =>
    rw [after_concat, latest_concat]
    cases call with
    | promote version resolved =>
      rw [Call.run, promote]
      split <;> exact ih
    | commit changes version resolved => rfl
    | get version key => exact ih

theorem get?_memo_concat (calls : List Call) (call : Call) :
    (after (calls ++ [call])).memo.get? key = (given key calls call).or
      (((after calls).memo.get? key).filter fun e => call.noted.all (e.outlives ·)) := by
  rw [after_concat]
  cases call with
  | promote version resolved =>
    rw [Call.run, promote, version_after, given]
    split
    · rw [Memo.get?_merge]
      exact congrArg _ filter_true.symm
    · exact filter_true.symm
  | commit changes version resolved =>
    rw [Call.run, commit, Memo.get?_merge, Memo.get?_applyAll (indexed_after calls)]
    rfl
  | get version key => exact filter_true.symm

/-- The shared memo answers a reader of the latest version, with the entry that stands. -/
theorem get?_after : (after calls).get? version key = some entry ↔
    version = latest calls ∧ Stands (given key) Call.noted calls entry := by
  rw [get?, version_after]
  have hstands : (after calls).memo.get? key = some entry ↔
      Stands (given key) Call.noted calls entry :=
    eq_some_iff_stands (fun calls => (after calls).memo.get? key) rfl get?_memo_concat
  by_cases h : latest calls = version
  · rw [if_pos h, hstands]
    simp [h]
  · have hne : ¬ version = latest calls := fun e => h e.symm
    simp [h, hne]

-- An entry that has been replaced is not dropped for what the former one depended on.
example :
    let key : MemoKey := ⟨.user ⟨1⟩, ⟨2⟩⟩
    let former := (∅ : Memo).insert key ⟨.single .read, {⟨5⟩}⟩
    let later := (∅ : Memo).insert key ⟨.single .write, {⟨6⟩}⟩
    (after [.commit [] 1 former, .promote 1 later, .commit [.entity ⟨5⟩] 2 ∅]).get? 2 key =
      some ⟨.single .write, {⟨6⟩}⟩ := by
  decide +kernel

end SharedMemo

namespace LocalMemo

/-- A call on the memo of a transaction. -/
inductive Call where
  | insert (key : MemoKey) (entry : MemoEntry)
  | invalidate (change : Change)
  | get (key : MemoKey)

namespace Call

def run (m : LocalMemo) : Call → LocalMemo
  | insert key entry => m.insert key entry
  | invalidate change => (m.invalidate change).2
  | get _ => m

/-- The entry that the call contributes for a key. -/
def given (key : MemoKey) : Call → Option MemoEntry
  | insert other entry => if other = key then some entry else none
  | invalidate _ | get _ => none

/-- The changes that the call tells of. -/
def noted : Call → List Change
  | invalidate change => [change]
  | insert .. | get _ => []

end Call

/-- The memo of a transaction that began at a version, after some calls. -/
def after (version : Nat) (calls : List Call) : LocalMemo := calls.foldl Call.run (reading version)

/-- An entry of the memo itself stands after some calls. -/
def Holds (key : MemoKey) (calls : List Call) (entry : MemoEntry) : Prop :=
  Stands (fun _ => Call.given key) Call.noted calls entry

variable {version : Nat} {calls : List Call} {key : MemoKey} {entry : MemoEntry}

theorem after_concat (version : Nat) (calls : List Call) (call : Call) :
    after version (calls ++ [call]) = call.run (after version calls) := by
  simp [after]

theorem indexed_after (version : Nat) (calls : List Call) :
    (after version calls).memo.Indexed := by
  induction calls using List.reverseRecOn with
  | nil => exact Memo.indexed_empty
  | append_singleton calls call ih =>
    rw [after_concat]
    cases call with
    | insert key entry => exact ih.insert
    | invalidate change => exact ih.apply
    | get key => exact ih

theorem sharedVersion_after (version : Nat) (calls : List Call) :
    (after version calls).sharedVersion = some version := by
  induction calls using List.reverseRecOn with
  | nil => rfl
  | append_singleton calls call ih =>
    rw [after_concat]
    cases call <;> exact ih

theorem isDirty_after (version : Nat) (calls : List Call) :
    (after version calls).isDirty = true ↔ ∃ change, .invalidate change ∈ calls := by
  induction calls using List.reverseRecOn with
  | nil => simp [after, reading]
  | append_singleton calls call ih =>
    rw [after_concat]
    cases call with
    | insert key entry => simpa [Call.run, insert] using ih
    | invalidate change => simp [Call.run]
    | get key => simpa [Call.run] using ih

theorem get?_memo_concat (calls : List Call) (call : Call) :
    (after version (calls ++ [call])).memo.get? key = (call.given key).or
      (((after version calls).memo.get? key).filter fun e => call.noted.all (e.outlives ·)) := by
  rw [after_concat]
  cases call with
  | insert other entry =>
    have hfilter := filter_true (o := (after version calls).memo.get? key)
    simp only [Call.run, insert, Memo.get?_insert, Call.given, Call.noted, List.all_nil, hfilter]
    split <;> rfl
  | invalidate change =>
    simp [Call.run, Memo.get?_apply (indexed_after version calls), Call.given, Call.noted]
  | get other => exact filter_true.symm

/-- The memo itself holds the entry that stands. -/
theorem get?_memo_after :
    (after version calls).memo.get? key = some entry ↔ Holds key calls entry :=
  eq_some_iff_stands (fun calls => (after version calls).memo.get? key) rfl get?_memo_concat

/-- A reader of the shared memo is served exactly the entry that stands after the calls on it, and
nothing unless it reads the latest version. A transaction is served the entry that stands after the
calls on its own memo; only if there is none, and it has not written yet, does it read the shared
memo, at the version it began with. -/
theorem served_iff (shared : List SharedMemo.Call) (calls : List Call) (version : Nat)
    (key : MemoKey) (entry : MemoEntry) :
    ((SharedMemo.after shared).get? version key = some entry ↔
      version = SharedMemo.latest shared ∧
        Stands (SharedMemo.given key) SharedMemo.Call.noted shared entry) ∧
    ((after version calls).get? (SharedMemo.after shared) key = some entry ↔
      Holds key calls entry ∨
        (¬ ∃ own, Holds key calls own) ∧ (¬ ∃ change, .invalidate change ∈ calls) ∧
          version = SharedMemo.latest shared ∧
            Stands (SharedMemo.given key) SharedMemo.Call.noted shared entry) := by
  refine ⟨SharedMemo.get?_after, ?_⟩
  have hholds : ∀ own, Holds key calls own ↔ (after version calls).memo.get? key = some own :=
    fun own => get?_memo_after.symm
  simp only [hholds, ← isDirty_after version calls, ← SharedMemo.get?_after, get?,
    sharedVersion_after]
  cases hown : (after version calls).memo.get? key with
  | some own => simp
  | none => by_cases hdirty : (after version calls).isDirty = true <;> simp [hdirty]

end LocalMemo
end PermissionGraph
