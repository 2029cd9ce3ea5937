import PermissionGraph.Access.Discovery
import PermissionGraph.Proofs.Access.Canonical

/-!
# PermissionGraph.Proofs.Access.Walk

The walk that finds what the permissions on an entity hang on. `Walks` is the walk without its
bound on rounds, one rule for each thing that can happen to the entity on top of the stack; with a
round for every entity of the graph the bounded walk is the same (`walks_walk`).

* `Walks.explores`: what a walk finds when it succeeds.
* `Walks.error_of_error`: two walks that remember complete entities only, whatever they remember,
  meet the same error first. Below a complete entity no look-up fails, so the entities that are not
  complete come up in the same order on both stacks.
-/

namespace PermissionGraph
namespace Discovery

open Std Derivations

variable {ε : Type} {recalled recalled' : EntityId → Option MemoEntry}
  {derive : EntityId → Except (AccessError ε) Derivation} {stack stack' : List EntityId}
  {w w' d : Discovery} {r r' : Except (AccessError ε) Discovery} {id x : EntityId}

/-- Notes the derivation of an entity. -/
def noteDerived (d : Discovery) (id : EntityId) (x : Derivation) : Discovery :=
  { d with derivations := d.derivations.insert id x }

/-- Notes that an entity is remembered. -/
def noteRemembered (d : Discovery) (id : EntityId) (e : MemoEntry) : Discovery :=
  { d with remembered := d.remembered.insert id e }

/-- A walk from a stack, with what it has found before and how it ends. -/
inductive Walks (recalled : EntityId → Option MemoEntry)
    (derive : EntityId → Except (AccessError ε) Derivation) :
    List EntityId → Discovery → Except (AccessError ε) Discovery → Prop where
  | done {d : Discovery} : Walks recalled derive [] d (.ok d)
  | skip {id : EntityId} {stack : List EntityId} {d : Discovery}
      {r : Except (AccessError ε) Discovery} :
      d.contains id = true → Walks recalled derive stack d r →
      Walks recalled derive (id :: stack) d r
  | remember {id : EntityId} {stack : List EntityId} {d : Discovery} {e : MemoEntry}
      {r : Except (AccessError ε) Discovery} :
      d.contains id = false → recalled id = some e →
      Walks recalled derive stack (d.noteRemembered id e) r →
      Walks recalled derive (id :: stack) d r
  | fail {id : EntityId} {stack : List EntityId} {d : Discovery} {cause : AccessError ε} :
      d.contains id = false → recalled id = none → derive id = .error cause →
      Walks recalled derive (id :: stack) d (.error cause)
  | read {id : EntityId} {stack : List EntityId} {d : Discovery} {x : Derivation}
      {r : Except (AccessError ε) Discovery} :
      d.contains id = false → recalled id = none → derive id = .ok x →
      Walks recalled derive (x.origins.reverse ++ stack) (d.noteDerived id x) r →
      Walks recalled derive (id :: stack) d r

theorem contains_noteDerived {y : Derivation} :
    (d.noteDerived id y).contains x = true ↔ id = x ∨ d.contains x = true := by
  rw [contains_iff, contains_iff, noteDerived, ExtTreeMap.mem_insert, Std.compare_eq_iff_eq,
    or_assoc]

theorem contains_noteRemembered {e : MemoEntry} :
    (d.noteRemembered id e).contains x = true ↔ id = x ∨ d.contains x = true := by
  rw [contains_iff, contains_iff, noteRemembered, ExtTreeMap.mem_insert, Std.compare_eq_iff_eq,
    or_left_comm]

/-! ## The bounded walk -/

theorem walks_of_settle (h : Walks recalled derive (settle recalled stack d).1
    (settle recalled stack d).2 r) : Walks recalled derive stack d r := by
  induction stack generalizing d with
  | nil => exact h
  | cons id stack ih =>
    rw [settle] at h
    split at h
    · next hc => exact .skip hc (ih h)
    · next hc =>
      split at h
      · next e he => exact .remember (by simpa using hc) he (ih h)
      · exact h

theorem settle_spec (recalled : EntityId → Option MemoEntry) (stack : List EntityId)
    (d : Discovery) : (settle recalled stack d).2.derivations = d.derivations ∧
    ∀ id rest, (settle recalled stack d).1 = id :: rest →
      (settle recalled stack d).2.contains id = false ∧ recalled id = none := by
  induction stack generalizing d with
  | nil => simp [settle]
  | cons top stack ih =>
    rw [settle]
    split
    · exact ih d
    · next hc =>
      split
      · next e _ => exact ih (d.noteRemembered top e)
      · next hnone =>
        refine ⟨rfl, ?_⟩
        intro id rest h
        injection h with htop _
        subst htop
        exact ⟨by simpa using hc, hnone⟩

/-- A walk with a round for every entity that has a derivation comes to its end. -/
theorem walks_walk {ids : List EntityId} (hids : ∀ id y, derive id = .ok y → id ∈ ids)
    {rounds : Nat} (hd : ∀ id ∈ d.derivations, id ∈ ids)
    (hrounds : ids.length < rounds + d.derivations.size) :
    Walks recalled derive stack d (walk recalled derive rounds stack d) := by
  induction rounds generalizing stack d with
  | zero =>
    have := map_size_le_length hd
    omega
  | succ rounds ih =>
    apply walks_of_settle
    obtain ⟨hder, hhead⟩ := settle_spec recalled stack d
    rw [walk]
    generalize settle recalled stack d = s at *
    obtain ⟨left, found⟩ := s
    cases left with
    | nil => exact .done
    | cons id rest =>
      obtain ⟨hnew, hnone⟩ := hhead id rest rfl
      cases hx : derive id with
      | error cause =>
        simp only [bind, Except.bind, hx]
        exact .fail hnew hnone hx
      | ok y =>
        simp only [bind, Except.bind, hx]
        refine .read hnew hnone hx (ih ?_ ?_)
        · intro x hmem
          rw [noteDerived, ExtTreeMap.mem_insert, Std.compare_eq_iff_eq] at hmem
          rcases hmem with rfl | hmem
          · exact hids id y hx
          · exact hd x (hder ▸ hmem)
        · have hnot : id ∉ found.derivations := by
            intro hmem
            rw [contains_iff.mpr (.inl hmem)] at hnew
            cases hnew
          have hsize : found.derivations.size = d.derivations.size := congrArg ExtTreeMap.size hder
          rw [noteDerived, ExtTreeMap.size_insert, if_neg (by simpa using hnot), hsize]
          omega

/-! ## What a walk finds -/

/-- What a walk from one entity finds in a table of derivations when it succeeds. -/
structure Explores (recalled : EntityId → Option MemoEntry) (D : Derivations) (root : EntityId)
    (w : Discovery) : Prop where
  derived : ∀ {id : EntityId} {y : Derivation}, w.derivations[id]? = some y →
    D[id]? = some y ∧ recalled id = none
  remembered : ∀ {id : EntityId} {e : MemoEntry}, w.remembered[id]? = some e → recalled id = some e
  start : w.contains root = true
  closed : ∀ {id : EntityId} {y : Derivation}, w.derivations[id]? = some y →
    ∀ o ∈ y.origins, w.contains o = true
  reached : ∀ {id : EntityId}, id ∈ w.derivations → D.Reaches root id

/-- The invariant of a walk: what is drawn on has been found or is still on the stack. -/
structure Underway (recalled : EntityId → Option MemoEntry) (D : Derivations) (root : EntityId)
    (stack : List EntityId) (w : Discovery) : Prop where
  derived : ∀ {id : EntityId} {y : Derivation}, w.derivations[id]? = some y →
    D[id]? = some y ∧ recalled id = none
  remembered : ∀ {id : EntityId} {e : MemoEntry}, w.remembered[id]? = some e → recalled id = some e
  start : w.contains root = true ∨ root ∈ stack
  closed : ∀ {id : EntityId} {y : Derivation}, w.derivations[id]? = some y →
    ∀ o ∈ y.origins, w.contains o = true ∨ o ∈ stack
  reached : ∀ {id : EntityId}, id ∈ w.derivations → D.Reaches root id
  ahead : ∀ s ∈ stack, D.Reaches root s

variable {D : Derivations} {root : EntityId}

theorem Underway.initial : Underway recalled D root [root] ∅ where
  derived h := by
    have hempty : (∅ : Discovery).derivations = ∅ := rfl
    simp [hempty] at h
  remembered h := by
    have hempty : (∅ : Discovery).remembered = ∅ := rfl
    simp [hempty] at h
  start := .inr (List.mem_singleton.mpr rfl)
  closed h := by
    have hempty : (∅ : Discovery).derivations = ∅ := rfl
    simp [hempty] at h
  reached h := by
    have hempty : (∅ : Discovery).derivations = ∅ := rfl
    simp [hempty] at h
  ahead s hs := by
    rw [List.mem_singleton.mp hs]
    exact .refl

theorem Underway.skip (h : Underway recalled D root (id :: stack) d) (hc : d.contains id = true) :
    Underway recalled D root stack d where
  derived := h.derived
  remembered := h.remembered
  start := by
    rcases h.start with hr | hr
    · exact .inl hr
    · rcases List.mem_cons.mp hr with rfl | hr
      · exact .inl hc
      · exact .inr hr
  closed hy o ho := by
    rcases h.closed hy o ho with ho | ho
    · exact .inl ho
    · rcases List.mem_cons.mp ho with rfl | ho
      · exact .inl hc
      · exact .inr ho
  reached := h.reached
  ahead s hs := h.ahead s (List.mem_cons_of_mem id hs)

theorem Underway.remember {e : MemoEntry} (h : Underway recalled D root (id :: stack) d)
    (he : recalled id = some e) : Underway recalled D root stack (d.noteRemembered id e) := by
  have hmore : Underway recalled D root (id :: stack) (d.noteRemembered id e) := by
    refine ⟨h.derived, fun {y f} hf => ?_, ?_, fun hy o ho => ?_, h.reached, h.ahead⟩
    · rw [noteRemembered, getElem?_insert_eq] at hf
      split at hf
      · next hid =>
        subst hid
        rw [← hf, he]
      · exact h.remembered hf
    · exact h.start.imp_left fun hr => contains_noteRemembered.mpr (.inr hr)
    · exact (h.closed hy o ho).imp_left fun hc => contains_noteRemembered.mpr (.inr hc)
  exact hmore.skip (contains_noteRemembered.mpr (.inl rfl))

theorem Underway.read {y : Derivation} (h : Underway recalled D root (id :: stack) d)
    (hnone : recalled id = none) (hy : D[id]? = some y) :
    Underway recalled D root (y.origins.reverse ++ stack) (d.noteDerived id y) := by
  have hstack : ∀ s, s ∈ y.origins.reverse ++ stack ↔ s ∈ y.origins ∨ s ∈ stack := by
    intro s
    rw [List.mem_append, List.mem_reverse]
  have hget : ∀ {x : EntityId} {z : Derivation}, (d.noteDerived id y).derivations[x]? = some z →
      id = x ∧ y = z ∨ d.derivations[x]? = some z := by
    intro x z hz
    rw [noteDerived, getElem?_insert_eq] at hz
    split at hz
    · next hid => exact .inl ⟨hid, Option.some_inj.mp hz⟩
    · exact .inr hz
  have hkept : ∀ {o : EntityId}, d.contains o = true ∨ o ∈ id :: stack →
      (d.noteDerived id y).contains o = true ∨ o ∈ y.origins.reverse ++ stack := by
    rintro o (ho | ho)
    · exact .inl (contains_noteDerived.mpr (.inr ho))
    · rcases List.mem_cons.mp ho with rfl | ho
      · exact .inl (contains_noteDerived.mpr (.inl rfl))
      · exact .inr ((hstack o).mpr (.inr ho))
  have hid : D.Reaches root id := h.ahead id List.mem_cons_self
  refine ⟨fun {x z} hz => ?_, h.remembered, hkept h.start, fun {x z} hz o ho => ?_,
    fun {x} hx => ?_, fun s hs => ?_⟩
  · rcases hget hz with ⟨rfl, rfl⟩ | hz
    · exact ⟨hy, hnone⟩
    · exact h.derived hz
  · rcases hget hz with ⟨rfl, rfl⟩ | hz
    · exact .inr ((hstack o).mpr (.inl ho))
    · exact hkept (h.closed hz o ho)
  · obtain ⟨z, hz⟩ := mem_iff_getElem?.mp hx
    rcases hget hz with ⟨rfl, _⟩ | hz
    · exact hid
    · exact h.reached (mem_of_getElem? hz)
  · rcases (hstack s).mp hs with hs | hs
    · exact hid.trans (Draws.reaches ⟨y, hy, hs⟩)
    · exact h.ahead s (List.mem_cons_of_mem id hs)

/-- A table of derivations holds what can be derived. -/
def IsTableOf (D : Derivations) (derive : EntityId → Except (AccessError ε) Derivation) : Prop :=
  ∀ (id : EntityId) (y : Derivation), D[id]? = some y ↔ derive id = .ok y

theorem Walks.explores (hD : IsTableOf D derive) (h : Walks recalled derive stack d (.ok w))
    (hu : Underway recalled D root stack d) : Explores recalled D root w := by
  generalize hr : (Except.ok w : Except (AccessError ε) Discovery) = r at h
  induction h with
  | done =>
    injection hr with hr
    subst hr
    refine ⟨hu.derived, hu.remembered, ?_, fun hy o ho => ?_, hu.reached⟩
    · exact hu.start.resolve_right List.not_mem_nil
    · exact (hu.closed hy o ho).resolve_right List.not_mem_nil
  | skip hc _ ih => exact ih (hu.skip hc) hr
  | remember _ he _ ih => exact ih (hu.remember he) hr
  | fail _ _ _ => cases hr
  | read _ hnone hy _ ih => exact ih (hu.read hnone ((hD _ _).mpr hy)) hr

/-- An error is that of an entity which the walk has reached and does not remember. -/
theorem Walks.exists_of_error (hD : IsTableOf D derive) {cause : AccessError ε}
    (h : Walks recalled derive stack d (.error cause)) (hu : Underway recalled D root stack d) :
    ∃ id, D.Reaches root id ∧ recalled id = none ∧ derive id = .error cause := by
  generalize hr : (Except.error cause : Except (AccessError ε) Discovery) = r at h
  induction h with
  | done => cases hr
  | skip hc _ ih => exact ih (hu.skip hc) hr
  | remember _ he _ ih => exact ih (hu.remember he) hr
  | fail _ hnone hcause =>
    injection hr with hr
    subst hr
    exact ⟨_, hu.ahead _ List.mem_cons_self, hnone, hcause⟩
  | read _ hnone hy _ ih => exact ih (hu.read hnone ((hD _ _).mpr hy)) hr

/-! ## The first error -/

section Errors

open Classical in
/-- The entities on a stack below which some look-up fails. -/
noncomputable def troubled (D : Derivations) (stack : List EntityId) : List EntityId :=
  stack.filter fun id => decide (¬ D.IsComplete id)

theorem troubled_cons_of_complete (h : D.IsComplete id) :
    troubled D (id :: stack) = troubled D stack := by
  simp [troubled, h]

theorem troubled_cons_of_not (h : ¬ D.IsComplete id) :
    troubled D (id :: stack) = id :: troubled D stack := by
  simp [troubled, h]

theorem troubled_append {l : List EntityId} :
    troubled D (l ++ stack) = troubled D l ++ troubled D stack :=
  List.filter_append ..

theorem troubled_origins {y : Derivation} (h : D.IsComplete id) (hy : D[id]? = some y) :
    troubled D (y.origins.reverse ++ stack) = troubled D stack := by
  have hnone : troubled D y.origins.reverse = [] := by
    rw [troubled, List.filter_eq_nil_iff]
    intro o ho
    have hc : D.IsComplete o :=
      h.of_reaches (Draws.reaches ⟨y, hy, List.mem_reverse.mp ho⟩)
    simpa using hc
  rw [troubled_append, hnone, List.nil_append]

/-- Two walks have been at the same entities below which some look-up fails. -/
def SameTroubled (D : Derivations) (d d' : Discovery) : Prop :=
  ∀ id, ¬ D.IsComplete id → (d.contains id = true ↔ d'.contains id = true)

theorem SameTroubled.noteRemembered {e : MemoEntry} (h : SameTroubled D d w)
    (hid : D.IsComplete id) : SameTroubled D (d.noteRemembered id e) w := by
  intro x hx
  rw [contains_noteRemembered, h x hx]
  constructor
  · rintro (rfl | hc)
    · exact absurd hid hx
    · exact hc
  · exact .inr

theorem SameTroubled.noteDerived {y : Derivation} (h : SameTroubled D d w)
    (hid : D.IsComplete id) : SameTroubled D (d.noteDerived id y) w := by
  intro x hx
  rw [contains_noteDerived, h x hx]
  constructor
  · rintro (rfl | hc)
    · exact absurd hid hx
    · exact hc
  · exact .inr

theorem SameTroubled.noteDerived_both {y z : Derivation} (h : SameTroubled D d w) :
    SameTroubled D (d.noteDerived id y) (w.noteDerived id z) := by
  intro x hx
  rw [contains_noteDerived, contains_noteDerived, h x hx]

theorem SameTroubled.trans (h₁ : SameTroubled D d w) (h₂ : SameTroubled D w w') :
    SameTroubled D d w' :=
  fun id hid => (h₁ id hid).trans (h₂ id hid)

theorem isComplete_of_derive_ok (hD : IsTableOf D derive) (h : D.IsComplete id) :
    ∃ y, derive id = .ok y ∧ D[id]? = some y := by
  obtain ⟨y, hy⟩ := mem_iff_getElem?.mp h.mem
  exact ⟨y, (hD id y).mp hy, hy⟩

/-- A walk works off the complete entities on top of its stack without an error. -/
theorem Walks.advance (hD : IsTableOf D derive) {top : EntityId} {rest : List EntityId}
    (h : Walks recalled derive stack d r) (htop : troubled D stack = top :: rest) :
    ∃ (stack' : List EntityId) (d' : Discovery), Walks recalled derive (top :: stack') d' r ∧
      troubled D stack' = rest ∧ SameTroubled D d' d := by
  induction h with
  | done => simp [troubled] at htop
  | @skip id stack d r hc hw ih =>
    by_cases hid : D.IsComplete id
    · exact ih (by rwa [troubled_cons_of_complete hid] at htop)
    · rw [troubled_cons_of_not hid] at htop
      injection htop with h₁ h₂
      subst h₁
      exact ⟨stack, d, .skip hc hw, h₂, fun _ _ => .rfl⟩
  | @remember id stack d e r hc he hw ih =>
    by_cases hid : D.IsComplete id
    · obtain ⟨stack', d', hw', hrest, hsame⟩ :=
        ih (by rwa [troubled_cons_of_complete hid] at htop)
      refine ⟨stack', d', hw', hrest, hsame.trans ?_⟩
      exact SameTroubled.noteRemembered (fun _ _ => .rfl) hid
    · rw [troubled_cons_of_not hid] at htop
      injection htop with h₁ h₂
      subst h₁
      exact ⟨stack, d, .remember hc he hw, h₂, fun _ _ => .rfl⟩
  | @fail id stack d cause hc hnone hcause =>
    have hid : ¬ D.IsComplete id := by
      intro hid
      obtain ⟨y, hy, _⟩ := isComplete_of_derive_ok hD hid
      rw [hcause] at hy
      cases hy
    rw [troubled_cons_of_not hid] at htop
    injection htop with h₁ h₂
    subst h₁
    exact ⟨stack, d, .fail hc hnone hcause, h₂, fun _ _ => .rfl⟩
  | @read id stack d y r hc hnone hy hw ih =>
    by_cases hid : D.IsComplete id
    · obtain ⟨stack', d', hw', hrest, hsame⟩ := ih (by
        rwa [troubled_origins hid ((hD id y).mpr hy), ← troubled_cons_of_complete hid])
      exact ⟨stack', d', hw', hrest, hsame.trans (SameTroubled.noteDerived (fun _ _ => .rfl) hid)⟩
    · rw [troubled_cons_of_not hid] at htop
      injection htop with h₁ h₂
      subst h₁
      exact ⟨stack, d, .read hc hnone hy hw, h₂, fun _ _ => .rfl⟩

/-- Of two walks whose stacks and findings agree on the entities below which some look-up fails,
the second meets the error that the first meets. -/
theorem Walks.error_of_error (hD : IsTableOf D derive) {cause : AccessError ε}
    (hrecall : ∀ id e, recalled id = some e → D.IsComplete id)
    (hrecall' : ∀ id e, recalled' id = some e → D.IsComplete id)
    (h : Walks recalled derive stack d (.error cause)) (h' : Walks recalled' derive stack' d' r')
    (hstack : troubled D stack = troubled D stack') (hsame : SameTroubled D d d') :
    r' = .error cause := by
  generalize hr : (Except.error cause : Except (AccessError ε) Discovery) = r at h
  induction h generalizing stack' d' with
  | done => cases hr
  | @skip id stack d r hc _ ih =>
    by_cases hid : D.IsComplete id
    · exact ih h' (by rwa [troubled_cons_of_complete hid] at hstack) hsame hr
    · rw [troubled_cons_of_not hid] at hstack
      obtain ⟨stack'', d'', hw, hrest, hsame'⟩ := h'.advance hD hstack.symm
      have hsame'' : SameTroubled D d d'' := fun x hx => (hsame x hx).trans (hsame' x hx).symm
      have hc' := (hsame'' id hid).mp hc
      cases hw with
      | skip _ hw => exact ih hw hrest.symm hsame'' hr
      | remember hn _ _ => rw [hc'] at hn; cases hn
      | fail hn _ _ => rw [hc'] at hn; cases hn
      | read hn _ _ _ => rw [hc'] at hn; cases hn
  | @remember id stack d e r _ he _ ih =>
    have hid := hrecall id e he
    exact ih h' (by rwa [troubled_cons_of_complete hid] at hstack) (hsame.noteRemembered hid) hr
  | @fail id stack d found hc _ hfound =>
    injection hr with hr
    subst hr
    have hid : ¬ D.IsComplete id := by
      intro hid
      obtain ⟨y, hy, _⟩ := isComplete_of_derive_ok hD hid
      rw [hfound] at hy
      cases hy
    rw [troubled_cons_of_not hid] at hstack
    obtain ⟨stack'', d'', hw, _, hsame'⟩ := h'.advance hD hstack.symm
    have hsame'' : SameTroubled D d d'' := fun x hx => (hsame x hx).trans (hsame' x hx).symm
    cases hw with
    | skip hc' _ =>
      rw [(hsame'' id hid).mpr hc'] at hc
      cases hc
    | remember _ he _ => exact absurd (hrecall' id _ he) hid
    | fail _ _ hfound' =>
      rw [hfound] at hfound'
      injection hfound' with hfound'
      rw [hfound']
    | read _ _ hy _ =>
      rw [hfound] at hy
      cases hy
  | @read id stack d y r hc _ hy _ ih =>
    have hget := (hD id y).mpr hy
    by_cases hid : D.IsComplete id
    · refine ih h' ?_ (hsame.noteDerived hid) hr
      rwa [troubled_origins hid hget, ← troubled_cons_of_complete hid]
    · rw [troubled_cons_of_not hid] at hstack
      obtain ⟨stack'', d'', hw, hrest, hsame'⟩ := h'.advance hD hstack.symm
      have hsame'' : SameTroubled D d d'' := fun x hx => (hsame x hx).trans (hsame' x hx).symm
      cases hw with
      | skip hc' _ =>
        rw [(hsame'' id hid).mpr hc'] at hc
        cases hc
      | remember _ he _ => exact absurd (hrecall' id _ he) hid
      | fail _ _ hfound =>
        rw [hy] at hfound
        cases hfound
      | read _ _ hy' hw =>
        rw [hy] at hy'
        injection hy' with hy'
        subst hy'
        refine ih hw ?_ hsame''.noteDerived_both hr
        rw [troubled_append, troubled_append, hrest]

end Errors

end Discovery
end PermissionGraph
