import PermissionGraph.Proofs.Access.Reading
import PermissionGraph.Proofs.Schema.Faults
import PermissionGraph.Proofs.Schema.InForce
import PermissionGraph.Proofs.Store.Writes

/-!
# PermissionGraph.Proofs.Store.Loading

Loading a document of rules, all or nothing. A document is declared as its declarations are, each a
document of its own, one after the other (`outcome_extend_cons`), up to the first that is at fault:
then nothing of it is declared, and the error is the one that this declaration gives alone. What is
held under a key afterwards is what its last declaration says (`get?_extend_of_declared`).

* `loads`: what comes of a document, for every rule book.
* `loads_document`: so it is in a transaction, which lists a change of the rules if the document is
  declared, and else stays as it is.
-/

namespace PermissionGraph

open Std

theorem Declaration.readKey_of_read {d : Declaration} {key : RuleKey} {rule : Rule}
    (h : d.read = .ok (key, rule)) : d.readKey = .ok key := by
  rw [read] at h
  simp only [bind_eq_ok_iff, pure_eq_ok_iff, Prod.mk.injEq] at h
  obtain ⟨_, _, _, _, found, hfound, rfl, _⟩ := h
  exact hfound

namespace RuleBook

variable {rules after : RuleBook} {document more : List Declaration} {d : Declaration}
  {key : RuleKey} {rule : Rule} {cause : SchemaError}

/-! ## One after the other -/

theorem outcome_extend_nil (rules : RuleBook) : (extend []).outcome rules = .ok ((), rules) := rfl

theorem outcome_extend_singleton (rules : RuleBook) (d : Declaration) :
    (extend [d]).outcome rules = d.read.map fun r => ((), rules.declareKey r.1 r.2) := by
  rw [Action.outcome, on_extend, List.mapM_cons, List.mapM_nil]
  cases d.read <;> rfl

/-- Reading a document as a whole before any of it is declared comes to the same as declaring it
while it is read, as far as all of it can be read. -/
theorem outcome_extend_cons (rules : RuleBook) (d : Declaration) (document : List Declaration) :
    (extend (d :: document)).outcome rules =
      (do extend [d]; extend document : Action RuleBook SchemaError Unit).outcome rules := by
  rw [Action.outcome_bind, outcome_extend_singleton, Action.outcome, on_extend, List.mapM_cons]
  cases d.read with
  | error cause => rfl
  | ok r =>
    show _ = (extend document).outcome (rules.declareKey r.1 r.2)
    rw [Action.outcome, on_extend]
    cases document.mapM Declaration.read <;> rfl

theorem outcome_extend_append (rules : RuleBook) (document more : List Declaration) :
    (extend (document ++ more)).outcome rules =
      (do extend document; extend more : Action RuleBook SchemaError Unit).outcome rules := by
  rw [Action.outcome_bind]
  induction document generalizing rules with
  | nil => rfl
  | cons d document ih =>
    rw [List.cons_append, outcome_extend_cons, outcome_extend_cons rules d document,
      Action.outcome_bind, Action.outcome_bind, bind_assoc]
    exact congrArg _ (funext fun r => ih r.2)

theorem outcome_extend_eq_forM (rules : RuleBook) (document : List Declaration) :
    (extend document).outcome rules =
      (forM document fun d => extend [d] : Action RuleBook SchemaError Unit).outcome rules := by
  induction document generalizing rules with
  | nil => rfl
  | cons d document ih =>
    rw [outcome_extend_cons, List.forM_cons, Action.outcome_bind, Action.outcome_bind]
    exact congrArg _ (funext fun r => ih r.2)

/-! ## The last declaration of a key -/

theorem get?_extend_of_not_declared (hnot : ∀ d ∈ document, d.readKey ≠ .ok key)
    (h : (extend document).outcome rules = .ok ((), after)) : after.get? key = rules.get? key := by
  induction document generalizing rules with
  | nil =>
    rw [outcome_extend_nil] at h
    cases h
    rfl
  | cons d document ih =>
    rw [outcome_extend_cons, Action.outcome_bind, bind_eq_ok_iff] at h
    obtain ⟨next, hnext, h⟩ := h
    rw [outcome_extend_singleton] at hnext
    obtain ⟨⟨other, rule⟩, hread, rfl⟩ := exists_of_map_eq_ok hnext
    have hne : other ≠ key := by
      rintro rfl
      exact hnot d List.mem_cons_self (Declaration.readKey_of_read hread)
    rw [ih (fun d hd => hnot d (List.mem_cons_of_mem _ hd)) h, get?_declareKey, if_neg hne]

theorem get?_extend_of_declared (hread : d.read = .ok (key, rule))
    (hnot : ∀ later ∈ more, later.readKey ≠ .ok key)
    (h : (extend (document ++ d :: more)).outcome rules = .ok ((), after)) :
    after.get? key = some rule := by
  rw [outcome_extend_append, Action.outcome_bind, bind_eq_ok_iff] at h
  obtain ⟨_, _, h⟩ := h
  rw [outcome_extend_cons, Action.outcome_bind, outcome_extend_singleton, hread, bind_eq_ok_iff]
    at h
  obtain ⟨_, hnext, h⟩ := h
  cases hnext
  rw [get?_extend_of_not_declared hnot h, get?_declareKey, if_pos rfl]

/-! ## The first fault -/

theorem extend_eq_ok_iff : ((extend document).on rules).1 = .ok () ↔ ∀ d ∈ document, d.Valid := by
  have hok := (reports_extend rules document).exists_ok_iff
  simp only [List.flatMap_eq_nil_iff, Declaration.faults_eq_nil_iff] at hok
  rw [← hok]
  constructor
  · intro h
    exact ⟨(), h⟩
  · rintro ⟨_, h⟩
    exact h

theorem load_eq_ok_iff : load document = .ok after ↔
    (extend document).on ∅ = (.ok (), after) := by
  rw [load, Action.outcome]
  rcases (extend document).on ∅ with ⟨_ | _, found⟩ <;> simp [Except.map]

theorem load_eq_error_iff : load document = .error cause ↔
    ((extend document).on ∅).1 = .error cause := by
  rw [load, Action.outcome]
  rcases (extend document).on ∅ with ⟨_ | _, found⟩ <;> simp [Except.map]

theorem load_singleton_eq_error_iff :
    load [d] = .error cause ↔ d.faults.head? = some cause := by
  have h := reports_extend ∅ [d] cause
  rwa [List.flatMap_singleton, ← load_eq_error_iff] at h

/-- The rest of a document has no say in the error, nor have the rules that it is declared to. -/
theorem extend_eq_error_iff : ((extend document).on rules).1 = .error cause ↔
    ∃ before d later, document = before ++ d :: later ∧ (∀ v ∈ before, v.Valid) ∧ ¬ d.Valid ∧
      load [d] = .error cause := by
  rw [reports_extend rules document cause, List.head?_flatMap, List.findSome?_eq_some_iff]
  simp only [List.head?_eq_none_iff, Declaration.faults_eq_nil_iff, load_singleton_eq_error_iff]
  constructor
  · rintro ⟨before, d, later, hdocument, hfault, hvalid⟩
    refine ⟨before, d, later, hdocument, hvalid, ?_, hfault⟩
    intro hd
    rw [Declaration.faults_eq_nil_iff.mpr hd] at hfault
    cases hfault
  · rintro ⟨before, d, later, hdocument, hvalid, _, hfault⟩
    exact ⟨before, d, later, hdocument, hfault, hvalid⟩

/-- All of a document is read before any of it is declared. -/
theorem extend_of_error (h : ((extend document).on rules).1 = .error cause) :
    ((extend document).on rules).2 = rules := by
  rw [on_extend] at h ⊢
  cases hread : document.mapM Declaration.read with
  | error cause => rfl
  | ok read =>
    rw [hread] at h
    cases h

/-! ## Documents -/

/-- What comes of declaring a document. -/
structure Loads (rules : RuleBook) (document : List Declaration) : Prop where
  succeeds_iff : ((extend document).on rules).1 = .ok () ↔ ∀ d ∈ document, d.Valid
  /-- The declarations one at a time, until one fails. -/
  one_by_one : (extend document).outcome rules =
    (forM document fun d => extend [d] : Action RuleBook SchemaError Unit).outcome rules
  append : ∀ more, (extend (document ++ more)).outcome rules =
    (do extend document; extend more : Action RuleBook SchemaError Unit).outcome rules
  /-- Of several declarations of a key the last one wins. -/
  last_wins : ∀ {before d later key rule after}, document = before ++ d :: later →
    d.read = .ok (key, rule) → (∀ other ∈ later, other.readKey ≠ .ok key) →
      (extend document).on rules = (.ok (), after) → after.get? key = some rule
  /-- A key that is not declared keeps its rule. -/
  keeps : ∀ {key after}, (∀ d ∈ document, d.readKey ≠ .ok key) →
    (extend document).on rules = (.ok (), after) → after.get? key = rules.get? key
  /-- The error is that of the first declaration that is not valid, whatever else is wrong. -/
  fails_iff : ∀ {cause}, ((extend document).on rules).1 = .error cause ↔
    ∃ before d later, document = before ++ d :: later ∧ (∀ v ∈ before, v.Valid) ∧ ¬ d.Valid ∧
      load [d] = .error cause
  /-- Of several faults of this declaration it is the first in the order of reading. -/
  first_fault : ∀ {cause}, ((extend document).on rules).1 = .error cause ↔
    (document.flatMap Declaration.faults).head? = some cause
  unchanged : ∀ {cause}, ((extend document).on rules).1 = .error cause →
    ((extend document).on rules).2 = rules

theorem loads (rules : RuleBook) (document : List Declaration) : rules.Loads document where
  succeeds_iff := extend_eq_ok_iff
  one_by_one := outcome_extend_eq_forM rules document
  append := outcome_extend_append rules document
  last_wins := by
    rintro before d later key rule after rfl hread hnot h
    exact get?_extend_of_declared hread hnot (Action.outcome_eq_ok_iff.mpr h)
  keeps hnot h := get?_extend_of_not_declared hnot (Action.outcome_eq_ok_iff.mpr h)
  fails_iff := extend_eq_error_iff
  first_fault {cause} := reports_extend rules document cause
  unchanged := extend_of_error

/-- What comes of loading a document in a transaction, by what comes of declaring it to the rules of
the transaction. -/
structure LoadsIn (st : Write.State) (document : List Declaration) : Prop where
  done : ∀ {after}, (extend document).on st.transaction.current.rules = (.ok (), after) →
    ∃ t, (Write.loadRules document).run st = (.ok .done, { st with transaction := t }) ∧
      t.base = st.transaction.base ∧
      t.current = { st.transaction.current with rules := after } ∧
      t.changes = st.transaction.changes ++ [.rules]
  refused : ∀ {cause}, ((extend document).on st.transaction.current.rules).1 = .error cause →
    (Write.loadRules document).run st = (.error (.refused (.schema cause)), st)

theorem loadsIn (st : Write.State) (document : List Declaration) : LoadsIn st document where
  done {after} h := by
    have houtcome := Action.outcome_eq_ok_iff (r := ((), after)).mpr h
    have hrun := Write.on_plain st (Transaction.on_loadRules st.transaction document)
    rw [houtcome] at hrun
    exact ⟨_, hrun, Transaction.base_write _ _ _, Transaction.current_write _ _ _,
      Transaction.changes_write _ _ _⟩
  refused h := by
    have hrun := Write.on_plain st (Transaction.on_loadRules st.transaction document)
    rw [Action.outcome_eq_error_iff.mpr h] at hrun
    exact hrun

/-- A document is loaded as a whole or not at all, to any rule book, to the empty one that loading
begins with, and to the rules of a transaction. -/
theorem loads_document (rules : RuleBook) (document : List Declaration) :
    rules.Loads document ∧
      (∀ after, load document = .ok after ↔ (extend document).on ∅ = (.ok (), after)) ∧
      (∀ cause, load document = .error cause ↔ ((extend document).on ∅).1 = .error cause) ∧
      ∀ st : Write.State, LoadsIn st document :=
  ⟨rules.loads document, fun _ => load_eq_ok_iff, fun _ => load_eq_error_iff,
    fun st => loadsIn st document⟩

-- Nothing is wrong with the flow of the second declaration, so the flow of the third is not looked
-- at. Entries are read by ascending kind word.
example :
    let faulty : Declaration :=
      { relationship := "Link", sourceType := some "Page", flow := "OUT",
        effects := .ofList [("write", "double"), ("execute", "treble")] }
    faulty.faults = [.unknownPermission "execute", .unknownEffect "treble",
        .unknownEffect "double", .incompletePair "Link"] ∧
      (load [{ relationship := "Link", flow := "Both" }, faulty,
        { relationship := "Link", flow := "up" }]).map (·.isEmpty) =
          .error (.unknownPermission "execute") := by
  decide +kernel

end RuleBook
end PermissionGraph
