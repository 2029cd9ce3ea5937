import PermissionGraph.Proofs.Access.Combination
import PermissionGraph.Proofs.Access.Outlive

/-!
# PermissionGraph.Proofs.Access.Gains

What a question adds to a memo that reads no shared memo. The entries of the memo for one principal
have been earned (`Access.Earned`): they are what earlier questions left there, and no change
dropped. A question for the permissions of the principal on an entity keeps them all and gains an
entry for each entity that is reached and not remembered yet (`Access.Gains`); a question that
fails leaves the memo as it was (`gains_permissions`).

The walk stops at what is remembered, so it has to be shown that nothing new lies behind: what a
remembered entity draws on is remembered as well. Questions see to that (`SelfContained.keep`), and
so do changes, since an entry rests on all that the entries of its inputs rest on (`Alone.note`).
-/

namespace PermissionGraph

open Std Derivations

variable {ε : Type}

theorem MemoEntry.outlives_of_subset {e e' : MemoEntry} {change : Change}
    (h : ∀ x ∈ e'.dependsOn, x ∈ e.dependsOn) (ho : e.outlives change = true) :
    e'.outlives change = true := by
  obtain ⟨hrules, htouched⟩ := outlives_iff.mp ho
  exact outlives_iff.mpr ⟨hrules, fun id hid hx => htouched id hid (h id hx)⟩

namespace Access

variable {a : Access ε} {memo : LocalMemo} {principal : Principal} {root x y : EntityId}
  {entry : MemoEntry} {w : Discovery}

/-! ## Entries that were earned -/

theorem recalled_of_unshared (h : memo.sharedVersion = none) :
    a.recalled memo principal x = memo.memo.get? ⟨principal, x⟩ := by
  rw [recalled, LocalMemo.get?, h]
  cases memo.memo.get? ⟨principal, x⟩ <;> simp

/-- A complete memo that reads no shared memo. -/
structure Alone (a : Access ε) (memo : LocalMemo) : Prop where
  complete : a.Complete memo
  unshared : memo.sharedVersion = none

theorem alone_empty : a.Alone ∅ := ⟨complete_empty, rfl⟩

theorem Alone.permissions (h : a.Alone memo) (principal : Principal) (id : EntityId) :
    a.Alone ((a.permissions principal id).ask memo).2 where
  complete := h.complete.permissions principal id
  unshared := by
    have hsteady := h.complete.coherent.steady.permissions principal id
    rw [hsteady.sharedVersion, h.unshared]

theorem Alone.ask (h : a.Alone memo) (q : Question) : a.Alone ((q.run a).ask memo).2 :=
  ask_preserves (fun _ hm => hm.complete.coherent)
    (fun _ principal id hm => hm.permissions principal id) q h

theorem Coherent.note (h : a.Coherent memo) (change : Change) :
    a.Coherent (memo.invalidate change).2 where
  indexed := h.indexed.apply
  own principal := by
    simp only [LocalMemo.memo_invalidate, Memo.get?_apply h.indexed]
    exact (h.own principal).filter fun hdep => MemoEntry.outlives_congr hdep change
  shared principal := by
    have hnone : a.recalledShared (memo.invalidate change).2 principal = fun _ => none := by
      funext id
      rw [recalledShared, LocalMemo.isDirty_invalidate, if_pos rfl]
    rw [hnone]
    exact .none

/-- An entry that outlives a change is left with all that it draws on, because it rests on what the
entries there rest on. -/
theorem Alone.note (h : a.Alone memo) (change : Change) :
    a.Alone (memo.invalidate change).2 := by
  have hunshared : (memo.invalidate change).2.sharedVersion = none := h.unshared
  refine ⟨⟨h.complete.coherent.note change, ?_⟩, hunshared⟩
  intro principal id entry o hentry hdraws
  simp only [recalled_of_unshared hunshared, LocalMemo.memo_invalidate,
    Memo.get?_apply h.complete.coherent.indexed, Option.filter_eq_some_iff] at hentry ⊢
  obtain ⟨hentry, houtlives⟩ := hentry
  rw [← recalled_of_unshared h.unshared] at hentry
  obtain ⟨found, hfound⟩ := h.complete.selfContained principal id entry o hentry hdraws
  have htrusts : a.Trusts memo principal := h.complete.coherent.trusts
  have hsubset := dependsOn_subset_of_draws (htrusts.correct hentry) hdraws
    (htrusts.correct hfound)
  rw [recalled_of_unshared h.unshared] at hfound
  exact ⟨found, hfound, MemoEntry.outlives_of_subset hsubset houtlives⟩

/-- What may happen to a memo while the graph stays as it is. -/
inductive Turn where
  | ask (q : Question)
  | note (change : Change)

def Turn.run (a : Access ε) (memo : LocalMemo) : Turn → LocalMemo
  | ask q => ((q.run a).ask memo).2
  | note change => (memo.invalidate change).2

theorem Alone.run (h : a.Alone memo) (turn : Turn) : a.Alone (turn.run a memo) := by
  cases turn with
  | ask q => exact h.ask q
  | note change => exact h.note change

theorem Alone.foldl_run (h : a.Alone memo) (turns : List Turn) :
    a.Alone (turns.foldl (Turn.run a) memo) :=
  List.foldlRecOn turns (Turn.run a) h fun _ hm turn _ => hm.run turn

/-- The memo reads no shared memo, and its entries for a principal are what earlier turns, from an
empty memo, have left. Its entries for others may be any. -/
structure Earned (a : Access ε) (principal : Principal) (memo : LocalMemo) : Prop where
  unshared : memo.sharedVersion = none
  earlier : ∃ turns : List Turn, ∀ id,
    memo.memo.get? ⟨principal, id⟩ = (turns.foldl (Turn.run a) ∅).memo.get? ⟨principal, id⟩

theorem Earned.exists_alone (h : a.Earned principal memo) :
    ∃ earlier, a.Alone earlier ∧ a.recalled earlier principal = a.recalled memo principal := by
  obtain ⟨turns, hturns⟩ := h.earlier
  have halone : a.Alone (turns.foldl (Turn.run a) ∅) := alone_empty.foldl_run turns
  refine ⟨_, halone, ?_⟩
  funext id
  rw [recalled_of_unshared halone.unshared, recalled_of_unshared h.unshared, hturns id]

theorem Earned.trusts (h : a.Earned principal memo) : a.Trusts memo principal := by
  obtain ⟨earlier, halone, heq⟩ := h.exists_alone
  rw [Trusts, ← heq]
  exact halone.complete.coherent.trusts

theorem Earned.exists_of_draws (h : a.Earned principal memo)
    (hentry : a.recalled memo principal x = some entry)
    (hdraws : (a.derivations principal).Draws x y) :
    ∃ found, a.recalled memo principal y = some found := by
  obtain ⟨earlier, halone, heq⟩ := h.exists_alone
  rw [← heq] at hentry ⊢
  exact halone.complete.selfContained principal x entry y hentry hdraws

theorem Earned.exists_of_reaches (h : a.Earned principal memo)
    (hentry : a.recalled memo principal x = some entry)
    (hr : (a.derivations principal).Reaches x y) :
    ∃ found, a.recalled memo principal y = some found := by
  induction hr with
  | refl => exact ⟨entry, hentry⟩
  | tail _ hdraws ih =>
    obtain ⟨found, hfound⟩ := ih
    exact h.exists_of_draws hfound hdraws

/-! ## Entries that are gained -/

/-- An entry for a principal that a memo holds after a question and did not hold before. -/
structure New (principal : Principal) (memo after : LocalMemo) (id : EntityId)
    (entry : MemoEntry) : Prop where
  before : memo.memo.get? ⟨principal, id⟩ = none
  after : after.memo.get? ⟨principal, id⟩ = some entry

/-- What a question for the permissions of a principal on an entity makes of a memo. -/
structure Gains (a : Access ε) (principal : Principal) (root : EntityId)
    (memo after : LocalMemo) : Prop where
  kept : ∀ key entry, memo.memo.get? key = some entry → after.memo.get? key = some entry
  gained : ∀ key, memo.memo.get? key = none → ((∃ entry, after.memo.get? key = some entry) ↔
    key.principal = principal ∧ (a.derivations principal).Reaches root key.entity)
  nothing : ∀ entry, memo.memo.get? ⟨principal, root⟩ = some entry → after = memo
  /-- A new entry rests on its entity. -/
  itself : ∀ id entry, New principal memo after id entry → id ∈ entry.dependsOn
  /-- A new entry rests on the inputs of its entity and on all that their entries rest on. -/
  inputs : ∀ id entry, New principal memo after id entry →
    ∃ d, (a.derivations principal)[id]? = some d ∧ a.Reads principal id d ∧
      ∀ o ∈ d.origins, o ∈ entry.dependsOn ∧
        ∃ found, after.memo.get? ⟨principal, o⟩ = some found ∧
          ∀ x ∈ found.dependsOn, x ∈ entry.dependsOn
  /-- The members of a cycle are new together and rest on the same entities. -/
  cycle : ∀ id other entry, New principal memo after id entry →
    (a.derivations principal).Tied id other →
      ∃ found, New principal memo after other found ∧ found.dependsOn = entry.dependsOn

theorem Earned.gains_refl (h : a.Earned principal memo)
    (hroot : a.recalled memo principal root = some entry) :
    a.Gains principal root memo memo := by
  have hno : ∀ {id entry}, ¬ New principal memo memo id entry := by
    intro id entry hnew
    have hcontra := hnew.before.symm.trans hnew.after
    cases hcontra
  refine ⟨fun _ _ he => he, fun key hkey => ?_, fun _ _ => rfl, fun _ _ hnew => absurd hnew hno,
    fun _ _ hnew => absurd hnew hno, fun _ _ _ hnew _ => absurd hnew hno⟩
  constructor
  · rintro ⟨entry, he⟩
    rw [hkey] at he
    cases he
  · rintro ⟨rfl, hr⟩
    obtain ⟨found, hfound⟩ := h.exists_of_reaches hroot hr
    rw [recalled_of_unshared h.unshared] at hfound
    exact ⟨found, hfound⟩

section Keep

variable (h : a.Earned principal memo) (hw : a.discover memo principal root = .ok w)
include h hw

theorem Earned.get?_keep_eq (key : MemoKey) :
    (keep memo principal w (Resolved.of w)).memo.get? key =
      if principal = key.principal ∧ key.entity ∈ w.derivations then
        (a.derivations principal).entries key.entity
      else memo.memo.get? key := by
  obtain ⟨p, x⟩ := key
  have hx := explores_discover hw
  rw [get?_keep (hx.mem_resolved h.trusts)]
  split
  · next hand => exact hx.getElem?_of h.trusts (Discovery.contains_iff.mpr (.inl hand.2))
  · rfl

theorem Earned.before_eq_none (hx : x ∈ w.derivations) :
    memo.memo.get? ⟨principal, x⟩ = none := by
  obtain ⟨d, hd⟩ := mem_iff_getElem?.mp hx
  have hnone := ((explores_discover hw).derived hd).2
  rwa [recalled_of_unshared h.unshared] at hnone

theorem Earned.new_keep_iff : New principal memo (keep memo principal w (Resolved.of w)) x entry ↔
    x ∈ w.derivations ∧ (a.derivations principal).entries x = some entry := by
  constructor
  · rintro ⟨hbefore, hafter⟩
    rw [h.get?_keep_eq hw] at hafter
    split at hafter
    · next hand => exact ⟨hand.2, hafter⟩
    · rw [hbefore] at hafter
      cases hafter
  · rintro ⟨hx, hentry⟩
    refine ⟨h.before_eq_none hw hx, ?_⟩
    rw [h.get?_keep_eq hw, if_pos ⟨rfl, hx⟩, hentry]

theorem Earned.exists_keep (hx : w.contains x = true) :
    ∃ found, (keep memo principal w (Resolved.of w)).memo.get? ⟨principal, x⟩ = some found ∧
      (a.derivations principal).entries x = some found := by
  by_cases hmem : x ∈ w.derivations
  · obtain ⟨found, hfound⟩ := exists_entries ((explores_discover hw).isComplete h.trusts hx)
    refine ⟨found, ?_, hfound⟩
    rw [h.get?_keep_eq hw, if_pos ⟨rfl, hmem⟩, hfound]
  · have hremembered := (Discovery.contains_iff.mp hx).resolve_left hmem
    obtain ⟨found, hfound⟩ := Option.isSome_iff_exists.mp
      (ExtTreeMap.mem_iff_isSome_getElem?.mp hremembered)
    have hrecalled := (explores_discover hw).remembered hfound
    refine ⟨found, ?_, h.trusts.correct hrecalled⟩
    rw [recalled_of_unshared h.unshared] at hrecalled
    rw [h.get?_keep_eq hw, if_neg fun hand => hmem hand.2, hrecalled]

/-- A walk from an entity that is not remembered finds what is reached and not remembered, and all
of it is kept. -/
theorem Earned.gains_keep (hroot : a.recalled memo principal root = none) :
    a.Gains principal root memo (keep memo principal w (Resolved.of w)) := by
  have hx := explores_discover hw
  constructor
  case kept =>
    intro key entry hentry
    rw [h.get?_keep_eq hw, if_neg ?_, hentry]
    rintro ⟨hp, hmem⟩
    have hnone := h.before_eq_none hw hmem
    rw [hp, hentry] at hnone
    cases hnone
  case gained =>
    intro key hkey
    have hiff : key.entity ∈ w.derivations ↔ a.recalled memo principal key.entity = none ∧
        (a.derivations principal).Reaches root key.entity :=
      hx.mem_derivations_iff fun _ _ _ => h.exists_of_draws
    rw [recalled_of_unshared h.unshared] at hiff
    constructor
    · rintro ⟨entry, hentry⟩
      rw [h.get?_keep_eq hw] at hentry
      split at hentry
      · next hand => exact ⟨hand.1.symm, (hiff.mp hand.2).2⟩
      · rw [hkey] at hentry
        cases hentry
    · rintro ⟨rfl, hr⟩
      have hmem := hiff.mpr ⟨hkey, hr⟩
      obtain ⟨found, hfound, _⟩ := h.exists_keep hw (Discovery.contains_iff.mpr (.inl hmem))
      exact ⟨found, hfound⟩
  case nothing =>
    intro entry hentry
    rw [recalled_of_unshared h.unshared, hentry] at hroot
    cases hroot
  case itself =>
    intro id entry hnew
    exact mem_dependsOn ((h.new_keep_iff hw).mp hnew).2 .refl (.inl rfl)
  case inputs =>
    intro id entry hnew
    obtain ⟨hid, hentry⟩ := (h.new_keep_iff hw).mp hnew
    obtain ⟨d, hd⟩ := mem_iff_getElem?.mp hid
    have hderived := (hx.derived hd).1
    refine ⟨d, hderived, reads_of_getElem? hderived, fun o ho => ?_⟩
    have hdraws : (a.derivations principal).Draws id o := ⟨d, hderived, ho⟩
    obtain ⟨found, hfound, hcorrect⟩ := h.exists_keep hw (hx.closed hd o ho)
    exact ⟨mem_dependsOn hentry hdraws.reaches (.inl rfl), found, hfound,
      dependsOn_subset_of_draws hentry hdraws hcorrect⟩
  case cycle =>
    intro id other entry hnew htied
    obtain ⟨hid, hentry⟩ := (h.new_keep_iff hw).mp hnew
    obtain ⟨found, hfound, hdep⟩ := dependsOn_eq_of_tied hentry htied
    have hother := (hx.isPart h.trusts).whole hid htied
    exact ⟨found, (h.new_keep_iff hw).mpr ⟨hother, hfound⟩, hdep⟩

end Keep

/-- A principal that is not exempt from checks is refused, is told what is remembered, or is told
what a walk has found. -/
theorem ask_permissions_cases (hsuper : a.isSuperuser principal ≠ .ok true) (memo : LocalMemo)
    (root : EntityId) :
    (∃ cause, (a.permissions principal root).ask memo = (.error cause, memo)) ∨
    (∃ entry, a.recalled memo principal root = some entry ∧
      (a.permissions principal root).ask memo = (.ok entry.permissions, memo)) ∨
    ∃ w, a.recalled memo principal root = none ∧ a.discover memo principal root = .ok w ∧
      (a.permissions principal root).ask memo =
        (.ok ((Resolved.of w).permissions root), keep memo principal w (Resolved.of w)) := by
  rw [ask_permissions_eq, answer_eq]
  cases hs : a.isSuperuser principal with
  | error cause => exact .inl ⟨cause, rfl⟩
  | ok b =>
    cases b with
    | true => exact absurd hs hsuper
    | false =>
      dsimp only
      rw [recollect]
      cases a.recalled memo principal root with
      | some entry => exact .inr (.inl ⟨entry, rfl, rfl⟩)
      | none =>
        dsimp only
        rw [resolve_eq]
        cases a.discover memo principal root with
        | error cause => exact .inl ⟨cause, rfl⟩
        | ok w => exact .inr (.inr ⟨w, rfl, rfl, rfl⟩)

/-- A question for the permissions of a principal that is not exempt from checks, over entries that
were earned: if it succeeds the memo gains what is reached and not remembered, and if it fails the
memo is as it was. -/
theorem gains_permissions (hearned : a.Earned principal memo)
    (hsuper : a.isSuperuser principal ≠ .ok true) (root : EntityId) :
    (∀ s after, (a.permissions principal root).ask memo = (.ok s, after) →
      a.Gains principal root memo after) ∧
    ∀ cause after, (a.permissions principal root).ask memo = (.error cause, after) →
      after = memo := by
  rcases ask_permissions_cases hsuper memo root with
    ⟨cause, hask⟩ | ⟨entry, hroot, hask⟩ | ⟨w, hroot, hw, hask⟩
  · rw [hask]
    refine ⟨fun s after h => ?_, fun cause after h => ?_⟩
    · cases h
    · cases h
      rfl
  · rw [hask]
    refine ⟨fun s after h => ?_, fun cause after h => ?_⟩
    · cases h
      exact hearned.gains_refl hroot
    · cases h
  · rw [hask]
    refine ⟨fun s after h => ?_, fun cause after h => ?_⟩
    · cases h
      exact hearned.gains_keep hw hroot
    · cases h

/-- A memo for the exchange: the third page is remembered for the user, and something made up for
somebody else. -/
def knownMemo : LocalMemo :=
  ([.note (.entity ⟨10⟩), .ask (.permissions (.user ⟨1⟩) ⟨12⟩)].foldl (Turn.run exchange) ∅).insert
    ⟨.anonymous, ⟨10⟩⟩ ⟨.full, ∅⟩

theorem earned_knownMemo : exchange.Earned (.user ⟨1⟩) knownMemo where
  unshared := by decide +kernel
  earlier := ⟨_, fun _ => Memo.get?_insert _ _ _ _⟩

/-- The note and both pages on its cycle are gained, and the third page is not. -/
theorem gains_permissions_exchange : exchange.Earned (.user ⟨1⟩) knownMemo ∧
    exchange.isSuperuser (.user ⟨1⟩) ≠ .ok true ∧
    ∃ after, (exchange.permissions (.user ⟨1⟩) ⟨23⟩).ask knownMemo =
        (.ok (.single .read), after) ∧
      exchange.Gains (.user ⟨1⟩) ⟨23⟩ knownMemo after ∧
      knownMemo.memo.entries.keys = [⟨.anonymous, ⟨10⟩⟩, ⟨.user ⟨1⟩, ⟨12⟩⟩] ∧
      after.memo.entries.keys = [⟨.anonymous, ⟨10⟩⟩, ⟨.user ⟨1⟩, ⟨10⟩⟩, ⟨.user ⟨1⟩, ⟨11⟩⟩,
        ⟨.user ⟨1⟩, ⟨12⟩⟩, ⟨.user ⟨1⟩, ⟨23⟩⟩] := by
  have hsuper : exchange.isSuperuser (.user ⟨1⟩) ≠ .ok true := by decide +kernel
  have hread : ((exchange.permissions (.user ⟨1⟩) ⟨23⟩).ask knownMemo).1 = .ok (.single .read) := by
    decide +kernel
  have hask : (exchange.permissions (.user ⟨1⟩) ⟨23⟩).ask knownMemo = (.ok (.single .read),
      ((exchange.permissions (.user ⟨1⟩) ⟨23⟩).ask knownMemo).2) := Prod.ext hread rfl
  refine ⟨earned_knownMemo, hsuper, _, hask, ?_, by decide +kernel, by decide +kernel⟩
  exact (gains_permissions earned_knownMemo hsuper ⟨23⟩).1 _ _ hask

end Access
end PermissionGraph
