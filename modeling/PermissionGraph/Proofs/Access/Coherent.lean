import PermissionGraph.Proofs.Access.Alike
import PermissionGraph.Proofs.Access.Answer
import PermissionGraph.Proofs.Memo.Index

/-!
# PermissionGraph.Proofs.Access.Coherent

What questions do to a memo. A memo is coherent with a graph (`Access.Coherent`) when its own
entries and those it reads from the shared memo can be trusted.

* `trusted_keep`: what is kept of a walk can be trusted.
* `permissionsAlike`: no question makes a memo incoherent, and none is answered differently from
  one coherent memo to another, even if they read different shared memos.
* `exists_answer_empty`: what an empty memo answers, and what it is left with.
-/

namespace PermissionGraph

open Std Derivations

variable {ε : Type}

theorem Trusted.or {D : Derivations} {f g : EntityId → Option MemoEntry} (hf : Trusted D f)
    (hg : Trusted D g) : Trusted D fun id => (f id).or (g id) where
  correct {id e} h := by
    rcases Option.or_eq_some_iff.mp h with h | ⟨_, h⟩
    · exact hf.correct h
    · exact hg.correct h
  whole {id other e} h ht := by
    have hother : ∃ e', f other = some e' ∨ g other = some e' := by
      rcases Option.or_eq_some_iff.mp h with h | ⟨_, h⟩
      · obtain ⟨e', he'⟩ := hf.whole h ht
        exact ⟨e', .inl he'⟩
      · obtain ⟨e', he'⟩ := hg.whole h ht
        exact ⟨e', .inr he'⟩
    obtain ⟨e', he' | he'⟩ := hother
    · exact ⟨e', by rw [he']; rfl⟩
    · cases hf' : f other with
      | some e'' => exact ⟨e'', rfl⟩
      | none => exact ⟨e', he'⟩

/-- A memo every entry of which can be trusted, given the table of derivations of each principal. -/
def Memo.Sound (m : Memo) (D : Principal → Derivations) : Prop :=
  ∀ principal, Trusted (D principal) fun id => m.get? ⟨principal, id⟩

theorem Memo.sound_empty {D : Principal → Derivations} : (∅ : Memo).Sound D := by
  intro principal
  have h : (fun id => (∅ : Memo).get? ⟨principal, id⟩) = fun _ => none := by
    funext id
    exact get?_empty _
  rw [h]
  exact .none

theorem Memo.Sound.merge {m other : Memo} {D : Principal → Derivations} (h : m.Sound D)
    (h' : other.Sound D) : (m.merge other).Sound D := by
  intro principal
  have heq : (fun id => (m.merge other).get? ⟨principal, id⟩) =
      fun id => (other.get? ⟨principal, id⟩).or (m.get? ⟨principal, id⟩) := by
    funext id
    exact get?_merge
  rw [heq]
  exact (h' principal).or (h principal)

namespace Access

variable {a a' : Access ε} {memo memo' : LocalMemo} {principal p : Principal} {id root : EntityId}
  {w : Discovery} {resolved : Resolved}

/-! ## What is kept -/

theorem keep_induction {P : LocalMemo → Prop} (h : P memo)
    (hinsert : ∀ m key entry, P m → P (m.insert key entry)) :
    P (keep memo principal w resolved) := by
  rw [keep]
  generalize w.derivations.keys = l
  induction l generalizing memo with
  | nil => exact h
  | cons id l ih =>
    rw [List.foldl_cons]
    apply ih
    cases resolved[id]? with
    | none => exact h
    | some entry => exact hinsert memo _ entry h

theorem isDirty_keep : (keep memo principal w resolved).isDirty = memo.isDirty :=
  keep_induction (P := fun m => m.isDirty = memo.isDirty) rfl fun _ _ _ h => h

theorem sharedVersion_keep : (keep memo principal w resolved).sharedVersion = memo.sharedVersion :=
  keep_induction (P := fun m => m.sharedVersion = memo.sharedVersion) rfl fun _ _ _ h => h

theorem indexed_keep (h : memo.memo.Indexed) : (keep memo principal w resolved).memo.Indexed :=
  keep_induction (P := fun m => m.memo.Indexed) h fun _ _ _ h => h.insert

/-- Of what a walk has derived, a memo holds afterwards what was resolved, and of anything else
what it held before. -/
theorem get?_keep (hw : ∀ id ∈ w.derivations, id ∈ resolved) :
    (keep memo principal w resolved).memo.get? ⟨p, id⟩ =
      if principal = p ∧ id ∈ w.derivations then resolved[id]? else memo.memo.get? ⟨p, id⟩ := by
  have hkeys : ∀ x ∈ w.derivations.keys, x ∈ resolved :=
    fun x hx => hw x (ExtTreeMap.mem_keys.mp hx)
  simp only [keep, ← ExtTreeMap.mem_keys (t := w.derivations)]
  generalize w.derivations.keys = l at hkeys ⊢
  induction l generalizing memo with
  | nil => simp
  | cons x l ih =>
    obtain ⟨entry, hentry⟩ := Option.isSome_iff_exists.mp
      (ExtTreeMap.mem_iff_isSome_getElem?.mp (hkeys x List.mem_cons_self))
    rw [List.foldl_cons, ih fun y hy => hkeys y (List.mem_cons_of_mem x hy), hentry]
    simp only [LocalMemo.insert, Memo.get?_insert, MemoKey.mk.injEq, List.mem_cons]
    by_cases hp : principal = p
    · by_cases hid : id ∈ l
      · simp [hp, hid]
      · by_cases hx : x = id
        · subst hx
          simp [hp, hid, hentry]
        · have hx' : ¬ id = x := fun e => hx e.symm
          simp [hp, hid, hx, hx']
    · simp [hp]

theorem trusted_keep {D : Derivations} {recalled : EntityId → Option MemoEntry}
    (hx : Discovery.Explores recalled D root w) (ht : Trusted D recalled)
    (hown : Trusted D fun id => memo.memo.get? ⟨principal, id⟩) :
    Trusted D fun id => (keep memo principal w (Resolved.of w)).memo.get? ⟨principal, id⟩ := by
  have hresolved : ∀ x ∈ w.derivations, (Resolved.of w)[x]? = D.entries x :=
    fun x hmem => hx.getElem?_of ht (Discovery.contains_iff.mpr (.inl hmem))
  have hmem := hx.mem_resolved ht
  constructor
  · intro id e he
    rw [get?_keep hmem] at he
    split at he
    · next h => rwa [hresolved id h.2] at he
    · exact hown.correct he
  · intro id other e he htied
    by_cases hother : other ∈ w.derivations
    · obtain ⟨e', he'⟩ := Option.isSome_iff_exists.mp
        (ExtTreeMap.mem_iff_isSome_getElem?.mp (hmem other hother))
      refine ⟨e', ?_⟩
      rw [get?_keep hmem, if_pos ⟨rfl, hother⟩, he']
    · have hid : id ∉ w.derivations := fun hid => hother ((hx.isPart ht).whole hid htied)
      rw [get?_keep hmem, if_neg fun h => hid h.2] at he
      obtain ⟨e', he'⟩ := hown.whole he htied
      refine ⟨e', ?_⟩
      rw [get?_keep hmem, if_neg fun h => hother h.2, he']

/-! ## Coherence -/

/-- What a memo recalls from the shared memo. -/
def recalledShared (a : Access ε) (memo : LocalMemo) (principal : Principal) (id : EntityId) :
    Option MemoEntry :=
  if memo.isDirty then none else memo.sharedVersion.bind (a.shared.get? · ⟨principal, id⟩)

theorem recalled_eq (a : Access ε) (memo : LocalMemo) (principal : Principal) :
    a.recalled memo principal = fun id =>
      (memo.memo.get? ⟨principal, id⟩).or (a.recalledShared memo principal id) := by
  funext id
  rw [recalled, LocalMemo.get?]
  cases memo.memo.get? ⟨principal, id⟩ <;> rfl

/-- A memo that can be trusted as it stands, in what is its own and in what it reads from the
shared memo. -/
structure Coherent (a : Access ε) (memo : LocalMemo) : Prop where
  indexed : memo.memo.Indexed
  own : memo.memo.Sound a.derivations
  shared : ∀ principal, Trusted (a.derivations principal) (a.recalledShared memo principal)

theorem Coherent.trusts (h : a.Coherent memo) : a.Trusts memo principal := by
  rw [Trusts, recalled_eq]
  exact (h.own principal).or (h.shared principal)

theorem coherent_empty : a.Coherent ∅ where
  indexed := Memo.indexed_empty
  own := Memo.sound_empty
  shared _ := .none

theorem Coherent.keep (h : a.Coherent memo) (hw : a.discover memo principal root = .ok w) :
    a.Coherent (keep memo principal w (Resolved.of w)) where
  indexed := indexed_keep h.indexed
  own p := by
    have hx := explores_discover hw
    by_cases hp : principal = p
    · subst hp
      exact trusted_keep hx h.trusts (h.own principal)
    · have heq : (fun id => (Access.keep memo principal w (Resolved.of w)).memo.get? ⟨p, id⟩) =
          fun id => memo.memo.get? ⟨p, id⟩ := by
        funext id
        rw [get?_keep (hx.mem_resolved h.trusts), if_neg fun hand => hp hand.1]
      rw [heq]
      exact h.own p
  shared p := by
    have heq : a.recalledShared (Access.keep memo principal w (Resolved.of w)) p =
        a.recalledShared memo p := by
      funext id
      rw [recalledShared, recalledShared, isDirty_keep, sharedVersion_keep]
    rw [heq]
    exact h.shared p

/-! ## Questions -/

/-- A question for permissions that fails has not come to add anything to the memo. -/
theorem memo_permissions_of_error {cause : AccessError ε}
    (h : ((a.permissions principal id).ask memo).1 = .error cause) :
    ((a.permissions principal id).ask memo).2 = memo := by
  rw [Query.ask, on_permissions] at h ⊢
  cases hsuper : a.isSuperuser principal with
  | error found => rfl
  | ok b =>
    rw [hsuper] at h
    cases b with
    | true => rfl
    | false =>
      dsimp only at h ⊢
      cases hrecall : a.recalled memo principal id with
      | some entry => rfl
      | none =>
        rw [hrecall] at h
        dsimp only at h ⊢
        rw [on_resolve] at h ⊢
        cases hw : a.discover memo principal id with
        | error found => rfl
        | ok w =>
          rw [hw] at h
          cases h

theorem ask_permissions_eq (a : Access ε) (principal : Principal) (id : EntityId)
    (memo : LocalMemo) :
    (a.permissions principal id).ask memo =
      match a.answer memo principal id with
      | .ok (s, memo) => (.ok s, memo)
      | .error e => (.error e, memo) := by
  rw [answer, Action.outcome]
  cases hask : (a.permissions principal id).on memo with
  | mk result memo' =>
    cases result with
    | ok s => exact hask
    | error cause =>
      have hmemo := memo_permissions_of_error (congrArg Prod.fst hask)
      rw [Query.ask, hask] at hmemo
      dsimp only at hmemo ⊢
      rw [Query.ask, hask, hmemo]

theorem ask_permissions (a : Access ε) (principal : Principal) (id : EntityId) (memo : LocalMemo) :
    ((a.permissions principal id).ask memo).1 = (a.answer memo principal id).map Prod.fst := by
  rw [ask_permissions_eq]
  cases a.answer memo principal id <;> rfl

theorem memo_permissions (a : Access ε) (principal : Principal) (id : EntityId)
    (memo : LocalMemo) :
    ((a.permissions principal id).ask memo).2 = memo ∨
      ∃ w, a.discover memo principal id = .ok w ∧
        ((a.permissions principal id).ask memo).2 = keep memo principal w (Resolved.of w) := by
  rw [ask_permissions_eq, answer_eq]
  cases a.isSuperuser principal with
  | error cause => exact .inl rfl
  | ok b =>
    cases b with
    | true => cases a.entity id <;> exact .inl rfl
    | false =>
      dsimp only
      rw [recollect]
      cases a.recalled memo principal id with
      | some entry => exact .inl rfl
      | none =>
        cases hr : (a.resolve principal id).outcome memo with
        | error cause => exact .inl rfl
        | ok r =>
          obtain ⟨w, hw, hr⟩ := exists_of_resolve hr
          refine .inr ⟨w, hw, ?_⟩
          rw [hr]

theorem Coherent.permissions (h : a.Coherent memo) (principal : Principal) (id : EntityId) :
    a.Coherent ((a.permissions principal id).ask memo).2 := by
  rcases memo_permissions a principal id memo with hm | ⟨w, hw, hm⟩
  · rwa [hm]
  · rw [hm]
    exact h.keep hw

/-- A coherent memo that reads the shared memo as another does. -/
structure Steady (a : Access ε) (like memo : LocalMemo) : Prop where
  coherent : a.Coherent memo
  isDirty : memo.isDirty = like.isDirty
  sharedVersion : memo.sharedVersion = like.sharedVersion

theorem Coherent.steady (h : a.Coherent memo) : a.Steady memo memo := ⟨h, rfl, rfl⟩

theorem Steady.permissions {like : LocalMemo} (h : a.Steady like memo) (principal : Principal)
    (id : EntityId) : a.Steady like ((a.permissions principal id).ask memo).2 := by
  refine ⟨h.coherent.permissions principal id, ?_, ?_⟩
  · rcases memo_permissions a principal id memo with hm | ⟨w, _, hm⟩
    · rw [hm, h.isDirty]
    · rw [hm, isDirty_keep, h.isDirty]
  · rcases memo_permissions a principal id memo with hm | ⟨w, _, hm⟩
    · rw [hm, h.sharedVersion]
    · rw [hm, sharedVersion_keep, h.sharedVersion]

/-- Over one graph the question for permissions has one answer, whatever the memos hold. -/
theorem permissionsAlike (hview : a.view = a'.view) (hsettings : a.settings = a'.settings)
    (like like' : LocalMemo) : a.PermissionsAlike (a.Steady like) (a'.Steady like') a' := by
  intro principal id m m' hm hm'
  refine ⟨?_, hm.permissions principal id, hm'.permissions principal id⟩
  rw [ask_permissions, ask_permissions, answer_congr hm.coherent.trusts trusts_empty,
    answer_congr hm'.coherent.trusts trusts_empty]
  exact answer_empty_congr hview hsettings

/-- What the question for permissions preserves of coherent memos, every question preserves. -/
theorem ask_preserves {P : LocalMemo → Prop} (hcoherent : ∀ m, P m → a.Coherent m)
    (hpermissions : ∀ m principal id, P m → P ((a.permissions principal id).ask m).2)
    (q : Question) (h : P memo) : P ((q.run a).ask memo).2 := by
  have halike : a.PermissionsAlike P P a := by
    intro principal id m m' hm hm'
    refine ⟨?_, hpermissions m principal id hm, hpermissions m' principal id hm'⟩
    rw [ask_permissions, ask_permissions]
    exact answer_congr (hcoherent m hm).trusts (hcoherent m' hm').trusts
  exact (alike_run halike (fun _ => rfl) q memo memo h h).2.1

/-! ## Questions to an empty memo -/

theorem memo_resolve_empty {s : PermissionSet} {memo : LocalMemo}
    (h : (a.resolve principal root).outcome ∅ = .ok (s, memo))
    (hr : (a.derivations principal).Reaches root id) :
    memo.memo.get? ⟨principal, id⟩ = (a.derivations principal).entries id := by
  obtain ⟨w, _, hw, _, _, rfl⟩ := resolve_eq_ok a.trusts_empty h
  have hx := explores_discover hw
  have hnone : ∀ y, a.recalled ∅ principal y = none := by
    intro y
    rw [recalled_empty]
  have hid := hx.mem_derivations_of_reaches hnone hr
  rw [get?_keep (hx.mem_resolved a.trusts_empty), if_pos ⟨rfl, hid⟩]
  exact hx.getElem?_of a.trusts_empty (Discovery.contains_iff.mpr (.inl hid))

theorem answer_empty_eq_resolve (hsuper : a.isSuperuser principal = .ok false) (root : EntityId) :
    a.answer ∅ principal root = (a.resolve principal root).outcome ∅ := by
  rw [answer_eq, hsuper]
  show a.recollect ∅ principal root = _
  rw [recollect, recalled_empty]

theorem exists_entries_of_answer_empty {s : PermissionSet} {memo : LocalMemo}
    (hsuper : a.isSuperuser principal = .ok false)
    (h : a.answer ∅ principal root = .ok (s, memo)) :
    ∃ e, (a.derivations principal).entries root = some e ∧ s = e.permissions := by
  rw [answer_empty_eq_resolve hsuper] at h
  obtain ⟨_, e, _, he, hs, _⟩ := resolve_eq_ok a.trusts_empty h
  exact ⟨e, he, hs⟩

/-- An empty memo answers a principal that is not exempt from checks with what the table says, and
is left with what the table says of all that is reached. -/
theorem exists_answer_empty {e : MemoEntry} (hsuper : a.isSuperuser principal = .ok false)
    (he : (a.derivations principal).entries root = some e) :
    ∃ memo, a.answer ∅ principal root = .ok (e.permissions, memo) ∧
      ∀ id, (a.derivations principal).Reaches root id →
        memo.memo.get? ⟨principal, id⟩ = (a.derivations principal).entries id := by
  obtain ⟨⟨s, memo⟩, hr, rfl⟩ := exists_of_map_eq_ok (resolve_of_entries a.trusts_empty he)
  exact ⟨memo, (answer_empty_eq_resolve hsuper root).trans hr, fun id => memo_resolve_empty hr⟩

end Access
end PermissionGraph
