import PermissionGraph.Proofs.Access.Available
import PermissionGraph.Proofs.Access.Locality

/-!
# PermissionGraph.Proofs.Access.Outlive

Memos across changes. Changes account for the difference between two graphs
(`GraphView.Accounts`) when the graphs agree on every entity that is not touched. A memo that drops
what the changes could have altered is then right about the second graph if it was right about the
first.
-/

namespace PermissionGraph

open Std Derivations

variable {ε : Type} {V V' V'' : GraphView ε} {changes more : List Change}

/-- The graphs differ in nothing but what the changes tell of. -/
structure GraphView.Accounts (V V' : GraphView ε) (changes : List Change) : Prop where
  agree : ∀ x : EntityId, (∀ c ∈ changes, x ∉ c.touched) → V.AgreeOn V' x
  rules : (∀ c ∈ changes, c.affectsAll = false) → V.rules = V'.rules

theorem GraphView.Accounts.refl : V.Accounts V [] where
  agree _ _ := ⟨rfl, rfl, fun _ => rfl⟩
  rules _ := rfl

theorem GraphView.AgreeOn.trans {x : EntityId} (h : V.AgreeOn V' x) (h' : V'.AgreeOn V'' x) :
    V.AgreeOn V'' x :=
  ⟨h.entity.trans h'.entity, h.incidents.trans h'.incidents,
    fun q => (h.granted q).trans (h'.granted q)⟩

theorem GraphView.Accounts.trans (h : V.Accounts V' changes) (h' : V'.Accounts V'' more) :
    V.Accounts V'' (changes ++ more) where
  agree x hx := by
    have hleft := h.agree x fun c hc => hx c (List.mem_append_left more hc)
    exact hleft.trans (h'.agree x fun c hc => hx c (List.mem_append_right changes hc))
  rules hall := by
    have hleft := h.rules fun c hc => hall c (List.mem_append_left more hc)
    exact hleft.trans (h'.rules fun c hc => hall c (List.mem_append_right changes hc))

theorem MemoEntry.outlives_all_iff {e : MemoEntry} : changes.all (e.outlives ·) = true ↔
    (∀ c ∈ changes, c.affectsAll = false) ∧ ∀ x ∈ e.dependsOn, ∀ c ∈ changes, x ∉ c.touched := by
  simp only [List.all_eq_true, outlives, Bool.and_eq_true, Bool.not_eq_true',
    decide_eq_true_eq]
  constructor
  · intro h
    exact ⟨fun c hc => (h c hc).1, fun x hx c hc hxc => (h c hc).2 x hxc hx⟩
  · rintro ⟨hall, htouched⟩ c hc
    exact ⟨hall c hc, fun x hxc hx => htouched x hx c hc hxc⟩

theorem MemoEntry.outlives_congr {e e' : MemoEntry} (h : e.dependsOn = e'.dependsOn)
    (change : Change) : e.outlives change = e'.outlives change := by
  rw [outlives, outlives, h]

/-- What can be trusted can be trusted in part, if the part is chosen by what entries rest on: the
members of a component rest on the same entities. -/
theorem Trusted.filter {D : Derivations} {recalled : EntityId → Option MemoEntry}
    (h : Trusted D recalled) {p : MemoEntry → Bool}
    (hp : ∀ {e e' : MemoEntry}, e.dependsOn = e'.dependsOn → p e = p e') :
    Trusted D fun id => (recalled id).filter p where
  correct he := h.correct (Option.filter_eq_some_iff.mp he).1
  whole {id other e} he htied := by
    obtain ⟨he, hpe⟩ := Option.filter_eq_some_iff.mp he
    obtain ⟨e', he'⟩ := h.whole he htied
    obtain ⟨found, hfound, hdep⟩ := dependsOn_eq_of_tied (h.correct he) htied
    rw [h.correct he'] at hfound
    cases hfound
    exact ⟨e', Option.filter_eq_some_iff.mpr ⟨he', (hp hdep).trans hpe⟩⟩

namespace Access

variable {a a' : Access ε} {principal : Principal} {recalled : EntityId → Option MemoEntry}
  {memo : LocalMemo}

/-- What can be trusted and outlives the changes can be trusted after them: it rests on nothing that
was touched, and neither do the other members of its component. -/
theorem trusted_of_accounts (hsettings : a.settings = a'.settings)
    (haccounts : a.view.Accounts a'.view changes)
    (hincidents : ∀ x, ∃ l, a'.view.incidents x = .ok l)
    (h : Trusted (a.derivations principal) recalled) :
    Trusted (a'.derivations principal) fun id =>
      (recalled id).filter fun e => changes.all (e.outlives ·) := by
  obtain ⟨members', hm'⟩ := exists_members hincidents principal
  constructor
  · intro id e he
    obtain ⟨he, hall⟩ := Option.filter_eq_some_iff.mp he
    obtain ⟨hrules, htouched⟩ := MemoEntry.outlives_all_iff.mp hall
    exact entries_of_agree (haccounts.rules hrules) hsettings hm' (h.correct he)
      fun y hy => haccounts.agree y (htouched y hy)
  · intro id other e hkept htied
    obtain ⟨he, hall⟩ := Option.filter_eq_some_iff.mp hkept
    obtain ⟨hrules, htouched⟩ := MemoEntry.outlives_all_iff.mp hall
    have htied' := (tied_of_agree (haccounts.rules hrules) hsettings hm' (h.correct he)
      fun y hy => haccounts.agree y (htouched y hy)).mp htied
    have hfiltered := h.filter (p := fun e => changes.all (e.outlives ·)) fun hdep => by
      simp only [MemoEntry.outlives_congr hdep]
    exact hfiltered.whole hkept htied'

theorem sound_applyAll (hsettings : a.settings = a'.settings)
    (haccounts : a.view.Accounts a'.view changes)
    (hincidents : ∀ x, ∃ l, a'.view.incidents x = .ok l) {m : Memo} (hindexed : m.Indexed)
    (h : m.Sound a.derivations) : (m.applyAll changes).Sound a'.derivations := by
  intro principal
  have heq : (fun id => (m.applyAll changes).get? ⟨principal, id⟩) =
      fun id => (m.get? ⟨principal, id⟩).filter fun e => changes.all (e.outlives ·) := by
    funext id
    exact Memo.get?_applyAll hindexed
  rw [heq]
  exact trusted_of_accounts hsettings haccounts hincidents (h principal)

end Access

namespace LocalMemo

variable {memo : LocalMemo}

theorem memo_foldl_invalidate (changes : List Change) (memo : LocalMemo) :
    (changes.foldl (fun m change => (m.invalidate change).2) memo).memo =
      memo.memo.applyAll changes := by
  rw [Memo.applyAll]
  induction changes generalizing memo with
  | nil => rfl
  | cons change changes ih =>
    rw [List.foldl_cons, List.foldl_cons, ih, memo_invalidate]

theorem isDirty_foldl_invalidate (changes : List Change) (memo : LocalMemo) :
    (changes.foldl (fun m change => (m.invalidate change).2) memo).isDirty =
      (memo.isDirty || !changes.isEmpty) := by
  induction changes generalizing memo with
  | nil => simp
  | cons change changes ih => rw [List.foldl_cons, ih]; simp

theorem sharedVersion_foldl_invalidate (changes : List Change) (memo : LocalMemo) :
    (changes.foldl (fun m change => (m.invalidate change).2) memo).sharedVersion =
      memo.sharedVersion := by
  induction changes generalizing memo with
  | nil => rfl
  | cons change changes ih =>
    rw [List.foldl_cons, ih]
    rfl

end LocalMemo

namespace Access

variable {a a' : Access ε} {memo : LocalMemo}

/-- A memo that notes the changes which led from one graph to another goes on to be coherent. It
reads the shared memo on only if there was no change. -/
theorem Coherent.invalidate (h : a.Coherent memo) (hsettings : a.settings = a'.settings)
    (hshared : a.shared = a'.shared) (haccounts : a.view.Accounts a'.view changes)
    (hincidents : ∀ x, ∃ l, a'.view.incidents x = .ok l) :
    a'.Coherent (changes.foldl (fun m change => (m.invalidate change).2) memo) where
  indexed := by
    rw [LocalMemo.memo_foldl_invalidate]
    exact h.indexed.applyAll
  own := by
    rw [LocalMemo.memo_foldl_invalidate]
    exact sound_applyAll hsettings haccounts hincidents h.indexed h.own
  shared principal := by
    cases changes with
    | nil =>
      have ht := trusted_of_accounts hsettings haccounts hincidents (h.shared principal)
      have heq : a'.recalledShared memo principal = fun id =>
          (a.recalledShared memo principal id).filter fun _ => true := by
        funext id
        rw [filter_true, recalledShared, recalledShared, hshared]
      rw [List.foldl_nil, heq]
      exact ht
    | cons change changes =>
      have heq : a'.recalledShared ((change :: changes).foldl
          (fun m change => (m.invalidate change).2) memo) principal = fun _ => none := by
        funext id
        rw [recalledShared, LocalMemo.isDirty_foldl_invalidate]
        simp
      rw [heq]
      exact .none

end Access
end PermissionGraph
