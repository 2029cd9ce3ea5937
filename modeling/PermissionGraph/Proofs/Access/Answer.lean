import PermissionGraph.Access.Query
import PermissionGraph.Proofs.Access.Reading
import PermissionGraph.Proofs.Access.Walk

/-!
# PermissionGraph.Proofs.Access.Answer

Answers do not depend on what is remembered. `Access.derivations` is the table of all derivations
that can be read off a graph for a principal. What is recalled of earlier questions can be trusted
(`Trusted`) when every entry is that of the table and components are recalled whole or not at all.

* `answer_congr`: with memos that can be trusted, whatever they hold, a question has one answer,
  permissions or error.
-/

namespace PermissionGraph

open Std Derivations

variable {ε : Type}

/-! ## The table of a graph -/

namespace Discovery

variable {view : GraphView ε} {settings : Settings} {members : List Member} {principal : Principal}

/-- Every derivation that can be read off a graph. -/
def table (view : GraphView ε) (settings : Settings) (members : List Member)
    (principal : Principal) : Derivations :=
  view.ids.foldl (fun ds id =>
    match derive view settings members principal id with
    | .ok d => ds.insert id d
    | .error _ => ds) ∅

theorem mem_ids_of_derive {id : EntityId} {d : Derivation}
    (h : derive view settings members principal id = .ok d) : id ∈ view.ids := by
  rw [derive] at h
  split at h
  · cases h
  · cases h
  · next e he => exact view.mem_ids he

theorem getElem?_foldl_read {f : EntityId → Except (AccessError ε) Derivation}
    {l : List EntityId} {acc : Derivations}
    (hacc : ∀ (x : EntityId) (y : Derivation), acc[x]? = some y → f x = .ok y)
    (x : EntityId) (y : Derivation) :
    (l.foldl (fun ds id => match f id with
      | .ok d => ds.insert id d
      | .error _ => ds) acc)[x]? = some y ↔ f x = .ok y ∧ (x ∈ l ∨ x ∈ acc) := by
  induction l generalizing acc with
  | nil =>
    constructor
    · intro h
      exact ⟨hacc x y h, .inr (mem_of_getElem? h)⟩
    · rintro ⟨hy, h | h⟩
      · exact absurd h List.not_mem_nil
      · obtain ⟨z, hz⟩ := mem_iff_getElem?.mp h
        have hzy := (hacc x z hz).symm.trans hy
        injection hzy with hzy
        rwa [List.foldl_nil, ← hzy]
  | cons a l ih =>
    rw [List.foldl_cons]
    cases ha : f a with
    | error cause =>
      rw [ih hacc]
      constructor
      · rintro ⟨hy, h⟩
        exact ⟨hy, h.imp_left (List.mem_cons_of_mem a)⟩
      · rintro ⟨hy, h | h⟩
        · rcases List.mem_cons.mp h with rfl | h
          · rw [ha] at hy
            cases hy
          · exact ⟨hy, .inl h⟩
        · exact ⟨hy, .inr h⟩
    | ok d =>
      have hacc' : ∀ (x : EntityId) (y : Derivation), (acc.insert a d)[x]? = some y →
          f x = .ok y := by
        intro x y h
        rw [getElem?_insert_eq] at h
        split at h
        · next hax =>
          injection h with h
          rw [← hax, ← h, ha]
        · exact hacc x y h
      rw [ih hacc', ExtTreeMap.mem_insert, Std.compare_eq_iff_eq, List.mem_cons]
      constructor
      · rintro ⟨hy, h | rfl | h⟩
        · exact ⟨hy, .inl (.inr h)⟩
        · exact ⟨hy, .inl (.inl rfl)⟩
        · exact ⟨hy, .inr h⟩
      · rintro ⟨hy, (rfl | h) | h⟩
        · exact ⟨hy, .inr (.inl rfl)⟩
        · exact ⟨hy, .inl h⟩
        · exact ⟨hy, .inr (.inr h)⟩

theorem isTableOf_table : IsTableOf (table view settings members principal)
    (derive view settings members principal) := by
  intro id y
  rw [table, getElem?_foldl_read (by simp)]
  constructor
  · exact fun h => h.1
  · intro h
    exact ⟨h, .inl (mem_ids_of_derive h)⟩

theorem walks_explore (recalled : EntityId → Option MemoEntry) (root : EntityId) :
    Walks recalled (derive view settings members principal) [root] ∅
      (explore view settings recalled members principal root) := by
  have hempty : (∅ : Discovery).derivations = ∅ := rfl
  exact walks_walk (fun _ _ => mem_ids_of_derive) (by simp [hempty]) (by simp [hempty])

end Discovery

namespace Access

variable {a : Access ε} {memo memo' : LocalMemo} {principal : Principal} {root id : EntityId}

theorem members_eq (a : Access ε) (user : EntityId) :
    a.members (.user user) =
      match Membership.closure a.view a.settings user with
      | .error cause => .error (.lookup cause)
      | .ok members => .ok members := rfl

/-- Every derivation for a principal. There is none if the groups of the principal can not be
had. -/
def derivations (a : Access ε) (principal : Principal) : Derivations :=
  match a.members principal with
  | .ok members => Discovery.table a.view a.settings members principal
  | .error _ => ∅

theorem isTableOf_derivations {members : List Member} (h : a.members principal = .ok members) :
    Discovery.IsTableOf (a.derivations principal)
      (Discovery.derive a.view a.settings members principal) := by
  rw [derivations, h]
  exact Discovery.isTableOf_table

theorem exists_members_of_mem (h : id ∈ a.derivations principal) :
    ∃ members, a.members principal = .ok members := by
  cases hm : a.members principal with
  | ok members => exact ⟨members, rfl⟩
  | error cause =>
    rw [derivations, hm] at h
    simp at h

theorem exists_of_getElem?_derivations {d : Derivation}
    (h : (a.derivations principal)[id]? = some d) :
    ∃ members e, a.members principal = .ok members ∧ a.view.entity? id = .ok (some e) ∧
      Derivation.of a.view a.settings members principal id e = .ok d := by
  obtain ⟨members, hm⟩ := exists_members_of_mem (mem_of_getElem? h)
  obtain ⟨e, he, hof⟩ := Discovery.derive_eq_ok_iff.mp ((isTableOf_derivations hm id d).mp h)
  exact ⟨members, e, hm, he, hof⟩

theorem mem_dependsOn {e : MemoEntry} {other x : EntityId}
    (h : (a.derivations principal).entries id = some e)
    (hr : (a.derivations principal).Reaches id other) (hx : x = other ∨ principal = .user x) :
    x ∈ e.dependsOn := by
  obtain ⟨d, hd⟩ := mem_iff_getElem?.mp (isComplete_of_entries h other hr)
  obtain ⟨members, _, _, _, hof⟩ := exists_of_getElem?_derivations hd
  obtain ⟨_, hbase, _, _⟩ := Derivation.of_eq_ok_iff.mp hof
  refine consulted_subset h hr hd x ((Derivation.mem_consulted_baseOf hbase).mpr ?_)
  exact hx.imp_right fun hprincipal => ⟨x, hprincipal, .inl rfl⟩

/-- What a memo holds for one principal, over a graph. -/
def recalled (a : Access ε) (memo : LocalMemo) (principal : Principal) (id : EntityId) :
    Option MemoEntry :=
  memo.get? a.shared ⟨principal, id⟩

theorem discover_eq {members : List Member} (h : a.members principal = .ok members) :
    a.discover memo principal root = Discovery.explore a.view a.settings
      (a.recalled memo principal) members principal root := by
  rw [discover, h]
  rfl

theorem walks_discover {members : List Member} (memo : LocalMemo) (root : EntityId)
    (h : a.members principal = .ok members) :
    Discovery.Walks (a.recalled memo principal)
      (Discovery.derive a.view a.settings members principal) [root] ∅
      (a.discover memo principal root) := by
  rw [discover_eq h]
  exact Discovery.walks_explore _ root

end Access

/-! ## Trust -/

/-- What is recalled is what the table of derivations says, in whole components. -/
structure Trusted (D : Derivations) (recalled : EntityId → Option MemoEntry) : Prop where
  correct : ∀ {id : EntityId} {e : MemoEntry}, recalled id = some e → D.entries id = some e
  whole : ∀ {id other : EntityId} {e : MemoEntry}, recalled id = some e → D.Tied id other →
    ∃ e', recalled other = some e'

theorem Trusted.none {D : Derivations} : Trusted D fun _ => none where
  correct h := by cases h
  whole h := by cases h

namespace Discovery.Explores

variable {D : Derivations} {recalled : EntityId → Option MemoEntry} {root id x : EntityId}
  {w : Discovery}

/-- All that is found is complete: what is remembered is, and what is drawn on is found. -/
theorem isComplete (hw : Explores recalled D root w) (ht : Trusted D recalled)
    (h : w.contains id = true) : D.IsComplete id := by
  have hremembered : ∀ y ∈ w.remembered, D.IsComplete y := by
    intro y hy
    obtain ⟨e, he⟩ := Option.isSome_iff_exists.mp (ExtTreeMap.mem_iff_isSome_getElem?.mp hy)
    exact isComplete_of_entries (ht.correct (hw.remembered he))
  intro x hx
  induction hx using Relation.ReflTransGen.head_induction_on with
  | refl =>
    rcases contains_iff.mp h with h | h
    · obtain ⟨y, hy⟩ := mem_iff_getElem?.mp h
      exact mem_of_getElem? (hw.derived hy).1
    · exact (hremembered x h).mem
  | @head b c hbc hcx ih =>
    rcases contains_iff.mp h with h | h
    · obtain ⟨y, hy⟩ := mem_iff_getElem?.mp h
      obtain ⟨z, hz, hc⟩ := hbc
      have hyz := (hw.derived hy).1.symm.trans hz
      injection hyz with hyz
      subst hyz
      exact ih (hw.closed hy c hc)
    · exact hremembered b h x ((Draws.reaches hbc).trans hcx)

/-- The entities derived make up whole components, since components are remembered whole. -/
theorem isPart (hw : Explores recalled D root w) (ht : Trusted D recalled) :
    D.IsPart w.derivations where
  agree h := (hw.derived h).1
  whole {id other} hid htied := by
    obtain ⟨hr, hback⟩ := htied
    induction hr with
    | refl => exact hid
    | @tail b c hidb hbc ih =>
      have hb := ih ((Draws.reaches hbc).trans hback)
      obtain ⟨y, hy⟩ := mem_iff_getElem?.mp hb
      obtain ⟨z, hz, hc⟩ := hbc
      have hyz := (hw.derived hy).1.symm.trans hz
      injection hyz with hyz
      subst hyz
      rcases contains_iff.mp (hw.closed hy c hc) with h | h
      · exact h
      · obtain ⟨e, he⟩ := Option.isSome_iff_exists.mp (ExtTreeMap.mem_iff_isSome_getElem?.mp h)
        have hcb : D.Tied c b := ⟨hback.trans hidb, Draws.reaches ⟨y, hz, hc⟩⟩
        obtain ⟨e', he'⟩ := ht.whole (hw.remembered he) hcb
        rw [(hw.derived hy).2] at he'
        cases he'

theorem remembered_eq_none (hw : Explores recalled D root w) (h : id ∈ w.derivations) :
    w.remembered[id]? = none := by
  obtain ⟨y, hy⟩ := mem_iff_getElem?.mp h
  cases he : w.remembered[id]? with
  | none => rfl
  | some e =>
    have hrecall := hw.remembered he
    rw [(hw.derived hy).2] at hrecall
    cases hrecall

theorem getElem?_of (hw : Explores recalled D root w) (ht : Trusted D recalled)
    (h : w.contains id = true) : (Resolved.of w)[id]? = D.entries id := by
  have hfresh : ∀ y ∈ w.derivations, w.remembered[y]? = none := fun y hy => hw.remembered_eq_none hy
  have hout : ∀ y, w.contains y = true → y ∉ w.derivations →
      (Resolved.of w)[y]? = D.entries y := by
    intro y hy hnot
    have hmem := (contains_iff.mp hy).resolve_left hnot
    obtain ⟨e, he⟩ := Option.isSome_iff_exists.mp (ExtTreeMap.mem_iff_isSome_getElem?.mp hmem)
    rw [Resolved.getElem?_of_remembered hfresh hnot, he, ht.correct (hw.remembered he)]
  by_cases hid : id ∈ w.derivations
  · have hcomplete : ∀ y ∈ w.derivations, D.IsComplete y :=
      fun y hy => hw.isComplete ht (contains_iff.mpr (.inl hy))
    exact entries_eq_of_part (hw.isPart ht) hcomplete (Resolved.settles_of hfresh)
      (fun y z hz o ho hnot => hout o (hw.closed hz o ho) hnot) id hid
  · exact hout id h hid

/-- If all that a remembered entity draws on is remembered too, a walk derives what is reached and
not remembered: what is not found itself lies behind something remembered. -/
theorem mem_derivations_iff (hw : Explores recalled D root w)
    (hclosed : ∀ y e o, recalled y = some e → D.Draws y o → ∃ f, recalled o = some f) :
    id ∈ w.derivations ↔ recalled id = none ∧ D.Reaches root id := by
  have hmem : ∀ y, w.contains y = true → recalled y = none → y ∈ w.derivations := by
    intro y hy hnone
    refine (contains_iff.mp hy).resolve_right fun h => ?_
    obtain ⟨e, he⟩ := Option.isSome_iff_exists.mp (ExtTreeMap.mem_iff_isSome_getElem?.mp h)
    rw [hw.remembered he] at hnone
    cases hnone
  constructor
  · intro hid
    obtain ⟨y, hy⟩ := mem_iff_getElem?.mp hid
    exact ⟨(hw.derived hy).2, hw.reached hid⟩
  · rintro ⟨hnone, hr⟩
    induction hr with
    | refl => exact hmem root hw.start hnone
    | @tail b c _ hbc ih =>
      have hb : recalled b = none := by
        cases he : recalled b with
        | none => rfl
        | some e =>
          obtain ⟨f, hf⟩ := hclosed b e c he hbc
          rw [hf] at hnone
          cases hnone
      obtain ⟨y, hy⟩ := mem_iff_getElem?.mp (ih hb)
      obtain ⟨z, hz, hc⟩ := hbc
      have hyz : y = z := Option.some_inj.mp ((hw.derived hy).1.symm.trans hz)
      rw [← hyz] at hc
      exact hmem c (hw.closed hy c hc) hnone

/-- A walk that recalls nothing derives all that is reached. -/
theorem mem_derivations_of_reaches (hw : Explores recalled D root w)
    (hnone : ∀ y, recalled y = none) (hr : D.Reaches root id) : id ∈ w.derivations := by
  refine (hw.mem_derivations_iff fun y e o he _ => ?_).mpr ⟨hnone id, hr⟩
  rw [hnone y] at he
  cases he

theorem mem_resolved (hw : Explores recalled D root w) (ht : Trusted D recalled) :
    ∀ x ∈ w.derivations, x ∈ Resolved.of w := by
  intro x hx
  have hc := contains_iff.mpr (.inl hx)
  obtain ⟨e, he⟩ := exists_entries (hw.isComplete ht hc)
  rw [← hw.getElem?_of ht hc] at he
  exact ExtTreeMap.mem_iff_isSome_getElem?.mpr (by rw [he]; rfl)

end Discovery.Explores

/-! ## Answers -/

namespace Access

variable {a : Access ε} {memo memo' : LocalMemo} {principal : Principal} {root id : EntityId}

/-- A memo that can be trusted, over a graph and for a principal. -/
def Trusts (a : Access ε) (memo : LocalMemo) (principal : Principal) : Prop :=
  Trusted (a.derivations principal) (a.recalled memo principal)

theorem recalled_empty : a.recalled ∅ principal = fun _ => none := by
  funext id
  have hmemo : (∅ : LocalMemo).memo = ∅ := rfl
  have hversion : (∅ : LocalMemo).sharedVersion = none := rfl
  simp [recalled, LocalMemo.get?, hmemo, hversion]

theorem trusts_empty : a.Trusts ∅ principal := by
  rw [Trusts, recalled_empty]
  exact .none

theorem explores_discover {w : Discovery} (h : a.discover memo principal root = .ok w) :
    Discovery.Explores (a.recalled memo principal) (a.derivations principal) root w := by
  cases hm : a.members principal with
  | error cause =>
    rw [discover, hm] at h
    cases h
  | ok members =>
    have hw := walks_discover memo root hm
    rw [h] at hw
    exact hw.explores (isTableOf_derivations hm) .initial

theorem discover_error {cause : AccessError ε} (h : a.Trusts memo principal)
    (h' : a.Trusts memo' principal) (he : a.discover memo principal root = .error cause) :
    a.discover memo' principal root = .error cause := by
  cases hm : a.members principal with
  | error found =>
    rw [discover, hm] at he ⊢
    exact he
  | ok members =>
    have hw := walks_discover memo root hm
    rw [he] at hw
    exact hw.error_of_error (isTableOf_derivations hm)
      (fun id e he => isComplete_of_entries (h.correct he))
      (fun id e he => isComplete_of_entries (h'.correct he))
      (walks_discover memo' root hm) rfl (fun _ _ => .rfl)

theorem exists_discover (memo : LocalMemo) (h : (a.derivations principal).IsComplete root) :
    ∃ w, a.discover memo principal root = .ok w := by
  obtain ⟨members, hm⟩ := exists_members_of_mem h.mem
  cases hw : a.discover memo principal root with
  | ok w => exact ⟨w, rfl⟩
  | error cause =>
    have hwalk := walks_discover memo root hm
    rw [hw] at hwalk
    obtain ⟨id, hr, _, hcause⟩ := hwalk.exists_of_error (isTableOf_derivations hm) .initial
    obtain ⟨y, hy⟩ := mem_iff_getElem?.mp (h id hr)
    rw [((isTableOf_derivations hm) id y).mp hy] at hcause
    cases hcause

/-- The memo is added to only after the walk, so a look-up that fails leaves it as it was. -/
theorem on_resolve (a : Access ε) (memo : LocalMemo) (principal : Principal) (root : EntityId) :
    (a.resolve principal root).on memo =
      match a.discover memo principal root with
      | .error cause => (.error cause, memo)
      | .ok w =>
        (.ok ((Resolved.of w).permissions root), keep memo principal w (Resolved.of w)) := by
  rw [resolve, Action.on_bind_of_ok (Action.on_get memo), Action.on_bind, Action.on_lift]
  cases a.discover memo principal root <;> rfl

theorem resolve_eq (a : Access ε) (memo : LocalMemo) (principal : Principal) (root : EntityId) :
    (a.resolve principal root).outcome memo =
      match a.discover memo principal root with
      | .error cause => .error cause
      | .ok w => .ok ((Resolved.of w).permissions root, keep memo principal w (Resolved.of w)) := by
  rw [Action.outcome, on_resolve]
  cases a.discover memo principal root <;> rfl

theorem exists_of_resolve {r : PermissionSet × LocalMemo}
    (h : (a.resolve principal root).outcome memo = .ok r) :
    ∃ w, a.discover memo principal root = .ok w ∧
      r = ((Resolved.of w).permissions root, keep memo principal w (Resolved.of w)) := by
  rw [resolve_eq] at h
  cases hw : a.discover memo principal root with
  | error cause =>
    rw [hw] at h
    cases h
  | ok w =>
    rw [hw] at h
    injection h with h
    exact ⟨w, rfl, h.symm⟩

theorem resolve_eq_ok {s : PermissionSet} (h : a.Trusts memo principal)
    (hr : (a.resolve principal root).outcome memo = .ok (s, memo')) :
    ∃ w e, a.discover memo principal root = .ok w ∧
      (a.derivations principal).entries root = some e ∧ s = e.permissions ∧
      memo' = keep memo principal w (Resolved.of w) := by
  obtain ⟨w, hw, hr⟩ := exists_of_resolve hr
  injection hr with hs hmemo
  have hx := explores_discover hw
  have hget := hx.getElem?_of h hx.start
  obtain ⟨e, he⟩ := exists_entries (hx.isComplete h hx.start)
  refine ⟨w, e, hw, he, ?_, hmemo⟩
  rw [hs, Resolved.permissions, hget, he]

theorem resolve_of_entries {e : MemoEntry} (h : a.Trusts memo principal)
    (he : (a.derivations principal).entries root = some e) :
    ((a.resolve principal root).outcome memo).map Prod.fst = .ok e.permissions := by
  obtain ⟨w, hw⟩ := exists_discover memo (isComplete_of_entries he)
  cases hr : (a.resolve principal root).outcome memo with
  | error cause =>
    rw [resolve_eq, hw] at hr
    cases hr
  | ok p =>
    obtain ⟨s, memo'⟩ := p
    obtain ⟨_, e', _, he', hs, _⟩ := resolve_eq_ok h hr
    rw [he] at he'
    injection he' with he'
    rw [Except.map, hs, he']

theorem resolve_eq_error_iff {cause : AccessError ε} :
    (a.resolve principal root).outcome memo = .error cause ↔
      a.discover memo principal root = .error cause := by
  rw [resolve_eq]
  cases a.discover memo principal root with
  | error found =>
    show (Except.error found : Except (AccessError ε) (PermissionSet × LocalMemo)) = _ ↔ _
    rw [Except.error.injEq, Except.error.injEq]
  | ok w =>
    constructor
    · intro h
      cases h
    · intro h
      cases h

theorem resolve_congr (h : a.Trusts memo principal) (h' : a.Trusts memo' principal) :
    ((a.resolve principal root).outcome memo).map Prod.fst =
      ((a.resolve principal root).outcome memo').map Prod.fst := by
  cases hr : (a.resolve principal root).outcome memo with
  | error cause =>
    have hw := discover_error h h' (resolve_eq_error_iff.mp hr)
    rw [resolve_eq_error_iff.mpr hw]
  | ok p =>
    obtain ⟨s, memo''⟩ := p
    obtain ⟨_, e, _, he, hs, _⟩ := resolve_eq_ok h hr
    rw [resolve_of_entries h' he, hs]
    rfl

/-- The permissions that a memo or, failing that, a walk says. -/
def recollect (a : Access ε) (memo : LocalMemo) (principal : Principal) (id : EntityId) :
    Except (AccessError ε) (PermissionSet × LocalMemo) :=
  match a.recalled memo principal id with
  | some entry => .ok (entry.permissions, memo)
  | none => (a.resolve principal id).outcome memo

theorem on_permissions (a : Access ε) (memo : LocalMemo) (principal : Principal) (id : EntityId) :
    (a.permissions principal id).on memo =
      match a.isSuperuser principal with
      | .error cause => (.error cause, memo)
      | .ok true => ((a.entity id).map fun _ => .full, memo)
      | .ok false =>
        match a.recalled memo principal id with
        | some entry => (.ok entry.permissions, memo)
        | none => (a.resolve principal id).on memo := by
  rw [permissions, Action.on_bind, Action.on_lift]
  cases a.isSuperuser principal with
  | error cause => rfl
  | ok b =>
    cases b with
    | true =>
      show (liftM (a.entity id) >>= fun _ => pure .full : Query ε PermissionSet).on memo = _
      rw [Action.on_bind, Action.on_lift]
      cases a.entity id <;> rfl
    | false =>
      rw [recalled]
      show Action.on (match memo.get? a.shared ⟨principal, id⟩ with
        | some entry => pure entry.permissions
        | none => a.resolve principal id) memo = _
      cases memo.get? a.shared ⟨principal, id⟩ <;> rfl

theorem answer_eq (a : Access ε) (memo : LocalMemo) (principal : Principal) (id : EntityId) :
    a.answer memo principal id =
      match a.isSuperuser principal with
      | .error cause => .error cause
      | .ok true =>
        match a.entity id with
        | .error cause => .error cause
        | .ok _ => .ok (.full, memo)
      | .ok false => a.recollect memo principal id := by
  rw [answer, Action.outcome, on_permissions]
  cases a.isSuperuser principal with
  | error cause => rfl
  | ok b =>
    cases b with
    | true => cases a.entity id <;> rfl
    | false =>
      show _ = a.recollect memo principal id
      rw [recollect]
      cases a.recalled memo principal id <;> rfl

theorem eq_full_of_answer {s : PermissionSet} (hsuper : a.isSuperuser principal = .ok true)
    (h : a.answer memo principal id = .ok (s, memo')) : s = .full := by
  rw [answer_eq, hsuper] at h
  cases he : a.entity id with
  | error cause =>
    rw [he] at h
    cases h
  | ok e =>
    rw [he] at h
    injection h with h
    injection h with hs
    exact hs.symm

theorem recollect_of_recalled {e : MemoEntry} (h : a.Trusts memo principal)
    (he : a.recalled memo principal id = some e) (h' : a.Trusts memo' principal) :
    (a.recollect memo' principal id).map Prod.fst = .ok e.permissions := by
  have hentry := h.correct he
  rw [recollect]
  cases he' : a.recalled memo' principal id with
  | none => exact resolve_of_entries h' hentry
  | some e' =>
    have heq := (h'.correct he').symm.trans hentry
    injection heq with heq
    rw [heq]
    rfl

/-- A principal that is not exempt from checks is answered with what the table says. -/
theorem answer_of_entries {e : MemoEntry} (hsuper : a.isSuperuser principal = .ok false)
    (h : a.Trusts memo principal) (he : (a.derivations principal).entries id = some e) :
    (a.answer memo principal id).map Prod.fst = .ok e.permissions := by
  rw [answer_eq, hsuper]
  show (a.recollect memo principal id).map Prod.fst = .ok e.permissions
  cases hrecall : a.recalled memo principal id with
  | none =>
    rw [recollect, hrecall]
    exact resolve_of_entries h he
  | some found =>
    have hfound : found = e := Option.some_inj.mp ((h.correct hrecall).symm.trans he)
    rw [recollect, hrecall, hfound]
    rfl

/-- With memos that can be trusted a question has one answer, permissions or error. -/
theorem answer_congr (h : a.Trusts memo principal) (h' : a.Trusts memo' principal) :
    (a.answer memo principal id).map Prod.fst = (a.answer memo' principal id).map Prod.fst := by
  have hrec : (a.recollect memo principal id).map Prod.fst =
      (a.recollect memo' principal id).map Prod.fst := by
    cases he : a.recalled memo principal id with
    | some e => rw [recollect_of_recalled h he h, recollect_of_recalled h he h']
    | none =>
      cases he' : a.recalled memo' principal id with
      | some e' => rw [recollect_of_recalled h' he' h, recollect_of_recalled h' he' h']
      | none =>
        rw [recollect, recollect, he, he']
        exact resolve_congr h h'
  rw [answer_eq, answer_eq]
  cases a.isSuperuser principal with
  | error cause => rfl
  | ok b =>
    cases b with
    | false => exact hrec
    | true => cases a.entity id <;> rfl

theorem isSuperuser_congr {a' : Access ε} (hview : a.view = a'.view)
    (hsettings : a.settings = a'.settings) (principal : Principal) :
    a.isSuperuser principal = a'.isSuperuser principal := by
  obtain ⟨view, settings, shared⟩ := a
  obtain ⟨view', settings', shared'⟩ := a'
  subst hview hsettings
  cases principal <;> rfl

theorem answer_empty_congr {a' : Access ε} (hview : a.view = a'.view)
    (hsettings : a.settings = a'.settings) :
    (a.answer ∅ principal id).map Prod.fst = (a'.answer ∅ principal id).map Prod.fst := by
  obtain ⟨view, settings, shared⟩ := a
  obtain ⟨view', settings', shared'⟩ := a'
  subst hview hsettings
  have hdiscover : (Access.mk view settings shared).discover ∅ principal id =
      (Access.mk view settings shared').discover ∅ principal id := by
    cases hm : (Access.mk view settings shared).members principal with
    | error cause =>
      have hm' : (Access.mk view settings shared').members principal = .error cause := hm
      rw [discover, discover, hm, hm']
      rfl
    | ok members =>
      have hm' : (Access.mk view settings shared').members principal = .ok members := hm
      rw [discover_eq hm, discover_eq hm', recalled_empty, recalled_empty]
  have hrecollect : (Access.mk view settings shared).recollect ∅ principal id =
      (Access.mk view settings shared').recollect ∅ principal id := by
    rw [recollect, recollect, recalled_empty, recalled_empty, resolve_eq, resolve_eq, hdiscover]
  rw [answer_eq, answer_eq, hrecollect]
  rfl

end Access
end PermissionGraph
