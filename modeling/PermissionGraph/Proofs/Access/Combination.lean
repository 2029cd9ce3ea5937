import PermissionGraph.Proofs.Access.Available
import PermissionGraph.Proofs.Access.Coherent

/-!
# PermissionGraph.Proofs.Access.Combination

What is remembered hangs together. After any questions over one memo, all that a remembered entity
draws on is remembered too (`SelfContained`), and what is remembered of the entity is its base with
what those entities add, without what they take away (`combines_memoAfter`). On a cycle this holds
of all members at once, provided that the cycle became stable; on an entity that is on no cycle it
always holds.
-/

namespace PermissionGraph

open Std Derivations

variable {ε : Type}

/-! ## Components that become stable -/

namespace Settling

variable {members : Derivations} {outside f g : EntityId → PermissionSet} {x y : Holdings}
  {id : EntityId} {n : Nat}

theorem after_congr (h : AgreeOutside members f g) : after members f n = after members g n := by
  induction n with
  | zero => rw [after, after, Function.iterate_zero, Function.iterate_zero]
  | succ n ih => rw [after_succ, after_succ, ← ih, round_congr over_after h]

/-- Whether a component becomes stable depends on what is held outside where a member draws on
it. -/
theorem Stabilises.congr (h : AgreeOutside members f g) (hs : Stabilises members f) :
    Stabilises members g := by
  obtain ⟨n, hn, hstable, hsettle⟩ := hs
  refine ⟨n, hn, ?_, ?_⟩
  · rw [← after_congr h, ← round_congr over_after h, hstable]
  · rw [← settle_congr h, hsettle, after_congr h]

/-- If no member draws on a member, the first round gives what every later one does. -/
theorem stabilises_of_notMem (hin : id ∈ members)
    (h : ∀ (x : EntityId) (d : Derivation), members[x]? = some d → ∀ o ∈ d.origins, o ∉ members) :
    Stabilises members outside := by
  have hround : ∀ {x y : Holdings}, Over members x → Over members y →
      round members outside x = round members outside y := by
    intro x y hx hy
    apply ExtTreeMap.ext_getElem?
    intro m
    rw [getElem?_round, getElem?_round]
    cases hd : members[m]? with
    | none => rfl
    | some d =>
      rw [Option.map_some, Option.map_some, Derivation.combine_congr fun o ho => ?_]
      rw [held_of_notMem hx (h m d hd o ho), held_of_notMem hy (h m d hd o ho)]
  have hbound : 1 < bound members := by
    have hsize : members.size ≠ 0 :=
      mt ExtTreeMap.eq_empty_iff_size_eq_zero.mpr (ExtTreeMap.ne_empty_of_mem hin)
    have hkinds : Permission.all.length = 5 := rfl
    rw [bound, hkinds]
    omega
  rcases iterate_spec members outside (bound members) (bases members) with hstable | ⟨hall, _⟩
  · exact hstable
  · exact absurd (hround over_round over_bases) (hall 1 hbound)

end Settling

namespace Derivations

variable {D members : Derivations} {id : EntityId}

/-- The permissions on an entity hang on themselves. -/
def OnCycle (D : Derivations) (id : EntityId) : Prop := Relation.TransGen D.Draws id id

theorem IsComponent.notMem_of_not_onCycle (hc : IsComponent D members) (hin : id ∈ members)
    (h : ¬ D.OnCycle id) (x : EntityId) (d : Derivation) (hd : members[x]? = some d) :
    ∀ o ∈ d.origins, o ∉ members := by
  intro o ho hmem
  have hdraws : D.Draws x o := ⟨d, hc.agree hd, ho⟩
  have hx := (hc.mem_iff hin x).mp (mem_of_getElem? hd)
  have hback := ((hc.mem_iff hin o).mp hmem).2
  exact h ((Relation.TransGen.tail' hx.1 hdraws).trans_left hback)

theorem IsComponent.stabilises_of_not_onCycle (hc : IsComponent D members) (hin : id ∈ members)
    (h : ¬ D.OnCycle id) {outside : EntityId → PermissionSet} :
    Settling.Stabilises members outside :=
  Settling.stabilises_of_notMem hin (hc.notMem_of_not_onCycle hin h)

/-- On a complete entity the entries say what its derivation combines, provided that the cycle it
is on became stable, if it is on one. -/
theorem IsComplete.permissions_entries (h : D.IsComplete id) {d : Derivation}
    (hd : D[id]? = some d) (hstable : D.OnCycle id →
      Settling.Stabilises (D.componentOf id) D.entries.permissions) :
    D.entries.permissions id = d.combine D.entries.permissions := by
  have hc := isComponent_componentOf h.mem
  have hin := (mem_componentOf h.mem).mpr Tied.refl
  have hall : ∀ m ∈ D.componentOf id, D.IsComplete m :=
    fun m hm => h.of_reaches ((mem_componentOf h.mem).mp hm).1
  refine permissions_entries_eq_combine hc hall hin ?_ hd
  by_cases hcycle : D.OnCycle id
  · exact hstable hcycle
  · exact hc.stabilises_of_not_onCycle hin hcycle

end Derivations

namespace Access

variable {a : Access ε} {memo : LocalMemo} {principal p : Principal} {id root : EntityId}
  {entry : MemoEntry} {w : Discovery} {questions : List Question}

/-! ## What is remembered with an entity -/

/-- All that a remembered entity draws on is remembered. -/
def SelfContained (a : Access ε) (memo : LocalMemo) : Prop :=
  ∀ principal id entry o, a.recalled memo principal id = some entry →
    (a.derivations principal).Draws id o → ∃ found, a.recalled memo principal o = some found

theorem selfContained_empty : a.SelfContained ∅ := by
  intro principal id entry o h
  rw [recalled_empty] at h
  cases h

theorem recalled_keep {resolved : Resolved} (hw : ∀ id ∈ w.derivations, id ∈ resolved) :
    a.recalled (keep memo principal w resolved) p id =
      if principal = p ∧ id ∈ w.derivations then resolved[id]? else a.recalled memo p id := by
  have hshared : a.recalledShared (keep memo principal w resolved) p id =
      a.recalledShared memo p id := by
    rw [recalledShared, recalledShared, isDirty_keep, sharedVersion_keep]
  simp only [recalled_eq, hshared, get?_keep hw]
  by_cases hand : principal = p ∧ id ∈ w.derivations
  · obtain ⟨found, hfound⟩ := Option.isSome_iff_exists.mp
      (ExtTreeMap.mem_iff_isSome_getElem?.mp (hw id hand.2))
    rw [if_pos hand, if_pos hand, hfound]
    rfl
  · rw [if_neg hand, if_neg hand]

/-- A walk ends where it finds what it draws on, or finds it remembered with all that it draws
on. -/
theorem SelfContained.keep (h : a.SelfContained memo) (ht : a.Trusts memo principal)
    (hw : a.discover memo principal root = .ok w) :
    a.SelfContained (keep memo principal w (Resolved.of w)) := by
  have hx := explores_discover hw
  have hresolved := hx.mem_resolved ht
  have hkept : ∀ p id, (∃ found, a.recalled memo p id = some found) →
      ∃ found, a.recalled (Access.keep memo principal w (Resolved.of w)) p id = some found := by
    intro p id hfound
    rw [recalled_keep hresolved]
    split
    · next hand =>
      exact Option.isSome_iff_exists.mp (ExtTreeMap.mem_iff_isSome_getElem?.mp
        (hresolved id hand.2))
    · exact hfound
  intro p id entry o hentry hdraws
  rw [recalled_keep hresolved] at hentry
  split at hentry
  · next hand =>
    obtain ⟨rfl, hid⟩ := hand
    obtain ⟨d, hd, ho⟩ := hdraws
    obtain ⟨y, hy⟩ := mem_iff_getElem?.mp hid
    have hyd : y = d := Option.some_inj.mp ((hx.derived hy).1.symm.trans hd)
    rw [← hyd] at ho
    rcases Discovery.contains_iff.mp (hx.closed hy o ho) with hmem | hmem
    · rw [recalled_keep hresolved, if_pos ⟨rfl, hmem⟩]
      exact Option.isSome_iff_exists.mp (ExtTreeMap.mem_iff_isSome_getElem?.mp (hresolved o hmem))
    · obtain ⟨found, hfound⟩ := Option.isSome_iff_exists.mp
        (ExtTreeMap.mem_iff_isSome_getElem?.mp hmem)
      exact hkept principal o ⟨found, hx.remembered hfound⟩
  · exact hkept p o (h p id entry o hentry hdraws)

/-! ## Questions in turn -/

/-- The memo that is left after questions of any kind, put in turn. -/
def memoAfter (a : Access ε) (questions : List Question) (memo : LocalMemo) : LocalMemo :=
  questions.foldl (fun memo q => ((q.run a).ask memo).2) memo

/-- A coherent memo in which all that a remembered entity draws on is remembered. -/
structure Complete (a : Access ε) (memo : LocalMemo) : Prop where
  coherent : a.Coherent memo
  selfContained : a.SelfContained memo

theorem Complete.permissions (h : a.Complete memo) (principal : Principal) (id : EntityId) :
    a.Complete ((a.permissions principal id).ask memo).2 where
  coherent := h.coherent.permissions principal id
  selfContained := by
    rcases memo_permissions a principal id memo with hm | ⟨w, hw, hm⟩
    · rw [hm]
      exact h.selfContained
    · rw [hm]
      exact h.selfContained.keep h.coherent.trusts hw

theorem Complete.ask (h : a.Complete memo) (q : Question) : a.Complete ((q.run a).ask memo).2 :=
  ask_preserves (fun _ => Complete.coherent) (fun _ principal id hm => hm.permissions principal id)
    q h

theorem Complete.memoAfter (h : a.Complete memo) (questions : List Question) :
    a.Complete (a.memoAfter questions memo) := by
  rw [Access.memoAfter]
  induction questions generalizing memo with
  | nil => exact h
  | cons q questions ih => exact ih (h.ask q)

theorem complete_empty : a.Complete ∅ := ⟨coherent_empty, selfContained_empty⟩

/-! ## The law of combination -/

/-- What the permissions of a principal on an entity are combined from, as it is read off a graph:
the base, an input for every relationship that touches the entity and whose rule propagates towards
it, and one for the endpoints of a relationship that is not readable by its base. -/
structure Reads (a : Access ε) (principal : Principal) (id : EntityId) (d : Derivation) : Prop where
  base : ∃ members e consulted, a.members principal = .ok members ∧
    a.view.entity? id = .ok (some e) ∧
    Derivation.baseOf a.view members principal id e = .ok (d.base, consulted)
  propagated : ∃ incidents, a.view.incidents id = .ok incidents ∧
    ∀ other rule, .propagated other rule ∈ d.inputs ↔ ∃ i ∈ incidents,
      rule = a.view.rules.ruleFor i.relationshipType ∧ rule.propagates i.direction = true ∧
        other = i.other
  endpoints : ∃ e, a.view.entity? id = .ok (some e) ∧
    ∀ source target, .endpoints source target ∈ d.inputs ↔
      a.settings.readableFromEndpoints = true ∧ d.base.holds .read = false ∧
        e.endpoints? = some (source, target)

theorem reads_of_getElem? {d : Derivation} (h : (a.derivations principal)[id]? = some d) :
    a.Reads principal id d := by
  obtain ⟨members, e, hm, he, hof⟩ := exists_of_getElem?_derivations h
  obtain ⟨incidents, hbase, hincidents, hinputs⟩ := Derivation.of_eq_ok_iff.mp hof
  refine ⟨⟨members, e, d.consulted, hm, he, hbase⟩, ⟨incidents, hincidents, fun other rule => ?_⟩,
    ⟨e, he, fun source target => ?_⟩⟩
  · rw [hinputs, List.mem_append, Derivation.mem_endpointInputs, Derivation.mem_propagatedInputs]
    constructor
    · rintro (⟨_, _, _, _, _, heq⟩ | ⟨i, hi, hadmits, heq⟩)
      · cases heq
      · injection heq with hother hrule
        exact ⟨i, hi, hrule, hrule ▸ hadmits, hother⟩
    · rintro ⟨i, hi, rfl, hpropagates, rfl⟩
      exact .inr ⟨i, hi, hpropagates, rfl⟩
  · rw [hinputs, List.mem_append, Derivation.mem_endpointInputs, Derivation.mem_propagatedInputs]
    constructor
    · rintro (⟨hreadable, hread, _, _, hends, heq⟩ | ⟨i, _, _, heq⟩)
      · injection heq with hsource htarget
        rw [hsource, htarget]
        exact ⟨hreadable, hread, hends⟩
      · cases heq
    · rintro ⟨hreadable, hread, hends⟩
      exact .inl ⟨hreadable, hread, source, target, hends, rfl⟩

/-- What a memo says that a principal holds on an entity: nothing where it does not say. -/
def heldIn (a : Access ε) (memo : LocalMemo) (principal : Principal) : EntityId → PermissionSet :=
  Entries.permissions (a.recalled memo principal)

/-- An entity of a memo follows the law of combination: its inputs are remembered, and what is held
on it is its base with what the inputs add, without what they take away. An entity on a cycle is
excepted if the cycle did not become stable. -/
structure Combines (a : Access ε) (memo : LocalMemo) (principal : Principal) (id : EntityId)
    (d : Derivation) : Prop where
  reads : a.Reads principal id d
  remembered : ∀ o ∈ d.origins, ∃ found, a.recalled memo principal o = some found
  law : ((a.derivations principal).OnCycle id →
      Settling.Stabilises ((a.derivations principal).componentOf id) (a.heldIn memo principal)) →
    a.heldIn memo principal id =
      (d.base ∪ .sum (d.inputs.map (·.added (a.heldIn memo principal)))) \
        .sum (d.inputs.map (·.removed (a.heldIn memo principal)))

theorem Complete.heldIn_eq (h : a.Complete memo)
    (hentry : a.recalled memo principal id = some entry) {o : EntityId}
    (hdraws : (a.derivations principal).Draws id o) :
    a.heldIn memo principal o = (a.derivations principal).entries.permissions o := by
  obtain ⟨found, hfound⟩ := h.selfContained principal id entry o hentry hdraws
  rw [heldIn, Entries.permissions, Entries.permissions, hfound, h.coherent.trusts.correct hfound]

theorem Complete.combines (h : a.Complete memo)
    (hentry : a.recalled memo principal id = some entry) : ∃ d, a.Combines memo principal id d := by
  have htrusts : a.Trusts memo principal := h.coherent.trusts
  have hcomplete := isComplete_of_entries (htrusts.correct hentry)
  obtain ⟨d, hd⟩ := mem_iff_getElem?.mp hcomplete.mem
  refine ⟨d, reads_of_getElem? hd, fun o ho => h.selfContained principal id entry o hentry
    ⟨d, hd, ho⟩, fun hstable => ?_⟩
  have hc := isComponent_componentOf hcomplete.mem
  -- the component is remembered as a whole, so the memo is right about all that it draws on
  have hagree : Settling.AgreeOutside ((a.derivations principal).componentOf id)
      (a.heldIn memo principal) (a.derivations principal).entries.permissions := by
    intro m y hy o ho _
    obtain ⟨found, hfound⟩ := htrusts.whole hentry
      ((mem_componentOf hcomplete.mem).mp (mem_of_getElem? hy))
    exact h.heldIn_eq hfound ⟨y, hc.agree hy, ho⟩
  have hself : a.heldIn memo principal id = (a.derivations principal).entries.permissions id := by
    rw [heldIn, Entries.permissions, Entries.permissions, hentry, htrusts.correct hentry]
  rw [hself, hcomplete.permissions_entries hd fun hcycle => (hstable hcycle).congr hagree]
  exact Derivation.combine_congr fun o ho => (h.heldIn_eq hentry ⟨d, hd, ho⟩).symm

/-- After any questions over one memo, what is remembered follows the law of combination, entity by
entity, for every principal. -/
theorem combines_memoAfter (a : Access ε) (questions : List Question) (principal : Principal)
    (id : EntityId) (entry : MemoEntry)
    (h : a.recalled (a.memoAfter questions ∅) principal id = some entry) :
    ∃ d, a.Combines (a.memoAfter questions ∅) principal id d :=
  (complete_empty.memoAfter questions).combines h

/-- Two pages that pass reading and writing on to each other, a third that takes writing away from
one of them, and a note that can be read over its endpoints. -/
def exchangeTables : Tables where
  entities := .ofList ([
    (⟨1⟩, .node "User"), (⟨10⟩, .node "Page"), (⟨11⟩, .node "Page"), (⟨12⟩, .node "Page"),
    (⟨20⟩, .relationship "Link" ⟨10⟩ ⟨11⟩), (⟨21⟩, .relationship "Link" ⟨11⟩ ⟨10⟩),
    (⟨22⟩, .relationship "Bar" ⟨12⟩ ⟨10⟩), (⟨23⟩, .relationship "Note" ⟨10⟩ ⟨11⟩)] :
    List (EntityId × Entity))
  grants := (((∅ : Grants).grant ⟨1⟩ ⟨11⟩ (.single .read ∪ .single .write)).2.grant ⟨1⟩ ⟨12⟩
    (.single .write)).2
  rules := ((∅ : RuleBook).declare "Link" ⟨.outward, { read := .add, write := .add }⟩).declare "Bar"
    ⟨.outward, { write := .remove }⟩

def exchange : Access Unavailable where
  view := exchangeTables.recover.view
  settings := {}

/-- The memo after reading the note was asked for, and after a question that finds out nothing of
the user. -/
def exchangeMemo : LocalMemo :=
  exchange.memoAfter [.isVisible (.user ⟨1⟩) ⟨23⟩, .canLink .anonymous ⟨10⟩ ⟨12⟩] ∅

theorem combines_memoAfter_exchange :
    ∃ d : Derivation, exchange.Combines exchangeMemo (.user ⟨1⟩) ⟨10⟩ d ∧
      exchange.heldIn exchangeMemo (.user ⟨1⟩) ⟨10⟩ = .single .read ∧
      .single .read = (d.base ∪ .sum (d.inputs.map
        (·.added (exchange.heldIn exchangeMemo (.user ⟨1⟩))))) \ .sum (d.inputs.map
          (·.removed (exchange.heldIn exchangeMemo (.user ⟨1⟩)))) := by
  obtain ⟨entry, hentry⟩ := Option.isSome_iff_exists.mp
    (show (exchange.recalled exchangeMemo (.user ⟨1⟩) ⟨10⟩).isSome = true by decide +kernel)
  obtain ⟨d, hd⟩ := combines_memoAfter exchange _ _ _ entry hentry
  have hheld : exchange.heldIn exchangeMemo (.user ⟨1⟩) ⟨10⟩ = .single .read := by decide +kernel
  have hlaw := hd.law fun _ => ⟨1, by decide +kernel⟩
  rw [← exchangeMemo, hheld] at hlaw
  exact ⟨d, hd, hheld, hlaw⟩

end Access
end PermissionGraph
