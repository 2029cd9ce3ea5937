import PermissionGraph.Schema.Declaration

/-!
# PermissionGraph.Proofs.Schema.Faults

What is wrong with a rule document. The faults of a declaration (`Declaration.faults`) are listed in
the order in which its words are read: the flow, then kind and effect of each entry by ascending
kind word, last the endpoint types. Whatever is read reports the first fault in it (`Reports`), and
so does what is read piece by piece (`Reports.bind`, `Reports.mapM`).

* `Declaration.faults_eq_nil_iff`: a declaration without faults is one whose words are all known
  and whose endpoint types are both named or both open.
* `RuleBook.reports_extend`: a document is refused for the first fault of its declarations, in a
  row.
-/

namespace PermissionGraph

open Std

/-! ## First faults -/

/-- A computation that fails with the first of some faults, and succeeds if there are none. -/
def Reports {ε α : Type} (faults : List ε) (r : Except ε α) : Prop :=
  ∀ cause, r = .error cause ↔ faults.head? = some cause

namespace Reports

variable {ε α β : Type} {fs gs : List ε} {r : Except ε α} {f : α → Except ε β}

theorem ok (a : α) : Reports [] (.ok a : Except ε α) := by
  intro cause
  simp

theorem error (cause : ε) : Reports [cause] (.error cause : Except ε α) := by
  intro found
  simp

theorem ite {p : Prop} [Decidable p] {cause : ε} (h : p → ∃ a, r = .ok a)
    (h' : ¬ p → r = .error cause) : Reports (if p then [] else [cause]) r := by
  by_cases hp : p
  · obtain ⟨a, rfl⟩ := h hp
    rw [if_pos hp]
    exact .ok a
  · rw [if_neg hp, h' hp]
    exact .error cause

theorem exists_ok_iff (h : Reports fs r) : (∃ a, r = .ok a) ↔ fs = [] := by
  cases r with
  | ok a =>
    refine ⟨fun _ => ?_, fun _ => ⟨a, rfl⟩⟩
    cases fs with
    | nil => rfl
    | cons cause fs => cases (h cause).mpr rfl
  | error cause =>
    have hhead := (h cause).mp rfl
    constructor
    · rintro ⟨a, ha⟩
      cases ha
    · rintro rfl
      cases hhead

/-- What comes later is only looked at if nothing was wrong before. -/
theorem bind (h : Reports fs r) (hf : ∀ a, r = .ok a → Reports gs (f a)) :
    Reports (fs ++ gs) (r >>= f) := by
  intro cause
  cases r with
  | ok a =>
    rw [h.exists_ok_iff.mp ⟨a, rfl⟩, List.nil_append]
    exact hf a rfl cause
  | error found =>
    rw [List.head?_append, (h found).mp rfl, Option.some_or, Option.some_inj]
    exact Except.error.injEq found cause ▸ Iff.rfl

theorem map (h : Reports fs r) (g : α → β) : Reports fs (r >>= fun a => pure (g a)) := by
  have hpure : Reports (fs ++ []) (r >>= fun a => pure (g a)) := h.bind fun a _ => .ok (g a)
  rwa [List.append_nil] at hpure

theorem mapM {faults : α → List ε} (h : ∀ a, Reports (faults a) (f a)) (l : List α) :
    Reports (l.flatMap faults) (l.mapM f) := by
  induction l with
  | nil => exact .ok []
  | cons a l ih =>
    rw [List.flatMap_cons, List.mapM_cons]
    exact (h a).bind fun b _ => ih.map (b :: ·)

end Reports

/-! ## Words -/

/-- The words for the kinds, as they must be written. -/
def Permission.words : List String :=
  ["read", "write", "delete", "access_control", "accessControl", "link"]

/-- The words for the flows, in small letters. -/
def Flow.words : List String := ["none", "out", "in", "both"]

/-- The words for the effects, in small letters. -/
def Effect.words : List String := ["none", "keep", "add", "remove"]

theorem Permission.mem_words_iff {word : String} :
    word ∈ words ↔ ∃ kind, ofName? word = some kind := by
  constructor
  · intro h
    simp only [words, List.mem_cons, List.not_mem_nil, or_false] at h
    rcases h with rfl | rfl | rfl | rfl | rfl | rfl <;> exact ⟨_, rfl⟩
  · rintro ⟨kind, h⟩
    rw [ofName?.eq_def] at h
    split at h <;> first | decide | cases h

theorem Permission.reports_parse (word : String) :
    Reports (if word ∈ words then [] else [.unknownPermission word]) (parse word) := by
  rw [parse]
  apply Reports.ite
  · intro hword
    obtain ⟨kind, hkind⟩ := mem_words_iff.mp hword
    exact ⟨kind, by rw [hkind]⟩
  · intro hword
    cases hkind : ofName? word with
    | none => rfl
    | some kind => exact absurd (mem_words_iff.mpr ⟨kind, hkind⟩) hword

theorem Flow.reports_parse (word : String) :
    Reports (if word.map Char.toLower ∈ words then [] else [.unknownFlow word]) (parse word) := by
  rw [parse]
  apply Reports.ite
  · intro hword
    simp only [words, List.mem_cons, List.not_mem_nil, or_false] at hword
    rcases hword with h | h | h | h <;> rw [h] <;> exact ⟨_, rfl⟩
  · intro hword
    split <;> first | rfl | simp_all [words]

theorem Effect.reports_parse (word : String) :
    Reports (if word.map Char.toLower ∈ words then [] else [.unknownEffect word])
      (parse word) := by
  rw [parse]
  apply Reports.ite
  · intro hword
    simp only [words, List.mem_cons, List.not_mem_nil, or_false] at hword
    rcases hword with h | h | h | h <;> rw [h] <;> exact ⟨_, rfl⟩
  · intro hword
    split <;> first | rfl | simp_all [words]

/-! ## Declarations -/

namespace Declaration

/-- What is wrong with an entry, the kind before the effect. -/
def entryFaults (entry : String × String) : List SchemaError :=
  (if entry.1 ∈ Permission.words then [] else [.unknownPermission entry.1]) ++
    if entry.2.map Char.toLower ∈ Effect.words then [] else [.unknownEffect entry.2]

/-- What is wrong with the endpoint types. -/
def endpointFaults (d : Declaration) : List SchemaError :=
  if d.sourceType.isSome = d.targetType.isSome then [] else [.incompletePair d.relationship]

/-- All that is wrong with a declaration, in the order in which it is read. -/
def faults (d : Declaration) : List SchemaError :=
  (if d.flow.map Char.toLower ∈ Flow.words then [] else [.unknownFlow d.flow]) ++
    (d.effects.toList.flatMap entryFaults ++ d.endpointFaults)

/-- A declaration all of whose words are known, and which is for a name or for a type. -/
structure Valid (d : Declaration) : Prop where
  flow : d.flow.map Char.toLower ∈ Flow.words
  kind : ∀ (kind effect : String), d.effects[kind]? = some effect → kind ∈ Permission.words
  effect : ∀ (kind effect : String), d.effects[kind]? = some effect →
    effect.map Char.toLower ∈ Effect.words
  endpoints : d.sourceType.isSome = d.targetType.isSome

variable {d : Declaration}

theorem entryFaults_eq_nil_iff {entry : String × String} : entryFaults entry = [] ↔
    entry.1 ∈ Permission.words ∧ entry.2.map Char.toLower ∈ Effect.words := by
  rw [entryFaults, List.append_eq_nil_iff]
  simp

theorem faults_eq_nil_iff : d.faults = [] ↔ d.Valid := by
  have hentries : d.effects.toList.flatMap entryFaults = [] ↔
      ∀ (kind effect : String), d.effects[kind]? = some effect →
        kind ∈ Permission.words ∧ effect.map Char.toLower ∈ Effect.words := by
    simp only [List.flatMap_eq_nil_iff, entryFaults_eq_nil_iff, Prod.forall,
      ExtTreeMap.mem_toList_iff_getElem?_eq_some]
  rw [faults, List.append_eq_nil_iff, List.append_eq_nil_iff, hentries, endpointFaults]
  constructor
  · rintro ⟨hflow, hwords, hends⟩
    exact ⟨by simpa using hflow, fun kind effect h => (hwords kind effect h).1,
      fun kind effect h => (hwords kind effect h).2, by simpa using hends⟩
  · intro h
    exact ⟨if_pos h.flow, fun kind effect he => ⟨h.kind kind effect he, h.effect kind effect he⟩,
      if_pos h.endpoints⟩

theorem reports_readEffects (rule : Rule) (entries : List (String × String)) :
    Reports (entries.flatMap entryFaults) (readEffects rule entries) := by
  induction entries generalizing rule with
  | nil => exact .ok rule
  | cons entry entries ih =>
    obtain ⟨kind, effect⟩ := entry
    rw [List.flatMap_cons, entryFaults, List.append_assoc, readEffects]
    exact (Permission.reports_parse kind).bind fun k _ =>
      (Effect.reports_parse effect).bind fun e _ => ih (rule.setEffect k e)

theorem reports_readKey (d : Declaration) : Reports d.endpointFaults d.readKey := by
  rw [endpointFaults, readKey]
  cases d.sourceType with
  | none =>
    cases d.targetType with
    | none => exact .ok _
    | some target => exact .error _
  | some source =>
    cases d.targetType with
    | none => exact .error _
    | some target => exact .ok _

theorem reports_read (d : Declaration) : Reports d.faults d.read :=
  (Flow.reports_parse d.flow).bind fun flow _ =>
    (reports_readEffects { flow } d.effects.toList).bind fun rule _ =>
      d.reports_readKey.map fun key => (key, rule)

end Declaration

/-! ## Documents -/

theorem RuleBook.reports_extend (rules : RuleBook) (document : List Declaration) :
    Reports (document.flatMap Declaration.faults) ((extend document).on rules).1 := by
  have hmap : ((extend document).on rules).1 =
      (document.mapM Declaration.read).map fun _ => () := by
    rw [on_extend]
    cases document.mapM Declaration.read <;> rfl
  rw [hmap]
  exact (Reports.mapM Declaration.reports_read document).map _

end PermissionGraph
