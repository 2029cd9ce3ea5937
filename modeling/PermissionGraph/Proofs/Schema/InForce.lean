import Mathlib.Data.List.Basic
import Mathlib.Data.List.Induction
import PermissionGraph.Schema.Declaration

/-!
# PermissionGraph.Proofs.Schema.InForce

The rules in force, told from the edits made to a rule book. What an edit does is a list of events:
a rule is declared for a key, or all that was declared about a name is taken back. A declaration is
in force (`InForce`) until a later event bears on its key.

* `get?_eq_some_iff`: what a rule book holds under a key is what is in force for it.
* `get?_filter`: events that do not bear on a key have no say in what is held under it.
* `reflects_after`: the rule of every relationship type, and what there is to remove, after any
  edits.
-/

namespace PermissionGraph

open Std

/-- The name of the relationships that a rule with this key is for. -/
def RuleKey.relationship : RuleKey → String
  | .name own => own
  | .type own => own.name

namespace RuleBook

variable {rules rules' : RuleBook} {key other : RuleKey} {rule : Rule} {type : RelationshipType}
  {name : String}

/-! ## Keys -/

/-- The rule held under a key. -/
def get? (rules : RuleBook) : RuleKey → Option Rule
  | .name name => rules.byName[name]?
  | .type type => rules.byType[type]?

theorem get?_empty (key : RuleKey) : (∅ : RuleBook).get? key = none := by
  have h : (∅ : RuleBook).byType = ∅ ∧ (∅ : RuleBook).byName = ∅ := ⟨rfl, rfl⟩
  cases key <;> simp [get?, h]

theorem get?_declareKey : (rules.declareKey key rule).get? other =
    if key = other then some rule else rules.get? other := by
  cases key <;> cases other <;>
    simp [declareKey, declare, declareBetween, get?, ExtTreeMap.getElem?_insert]

theorem get?_remove : (rules.remove name).2.get? key =
    if name = key.relationship then none else rules.get? key := by
  cases key with
  | name own =>
    by_cases h : name = own <;>
      simp [remove, get?, RuleKey.relationship, ExtTreeMap.getElem?_erase, h]
  | type type =>
    simp only [remove, get?, RuleKey.relationship, ExtTreeMap.getElem?_filter']
    by_cases h : name = type.name
    · cases rules.byType[type]? <;> simp [h, Option.filter]
    · have : ¬ type.name = name := fun e => h e.symm
      cases rules.byType[type]? <;> simp [h, this, Option.filter]

/-- The rule of the exact type, or else of the name, or else none that propagates. -/
theorem ruleFor_eq (rules : RuleBook) (type : RelationshipType) : rules.ruleFor type =
    ((rules.get? (.type type)).or (rules.get? (.name type.name))).getD .none := by
  rw [ruleFor, get?, get?]
  cases rules.byType[type]? with
  | some own => rfl
  | none => exact ExtTreeMap.getD_eq_getD_getElem?

theorem removes_iff_exists :
    (rules.remove name).1 = true ↔
      ∃ key rule, key.relationship = name ∧ rules.get? key = some rule := by
  rw [removes_iff]
  constructor
  · rintro (h | ⟨type, h, hname⟩)
    · obtain ⟨rule, hrule⟩ := Option.isSome_iff_exists.mp
        (ExtTreeMap.mem_iff_isSome_getElem?.mp h)
      exact ⟨.name name, rule, rfl, hrule⟩
    · obtain ⟨rule, hrule⟩ := Option.isSome_iff_exists.mp
        (ExtTreeMap.mem_iff_isSome_getElem?.mp h)
      exact ⟨.type type, rule, hname, hrule⟩
  · rintro ⟨key, rule, rfl, hrule⟩
    have hsome : (rules.get? key).isSome = true := by rw [hrule]; rfl
    cases key with
    | name own => exact .inl (ExtTreeMap.mem_iff_isSome_getElem?.mpr hsome)
    | type type => exact .inr ⟨type, ExtTreeMap.mem_iff_isSome_getElem?.mpr hsome, rfl⟩

theorem isEmpty_iff : rules.isEmpty = true ↔ ∀ key, rules.get? key = none := by
  rw [isEmpty, Bool.and_eq_true, ExtTreeMap.isEmpty_iff, ExtTreeMap.isEmpty_iff]
  constructor
  · rintro ⟨hname, htype⟩ key
    cases key <;> simp [get?, hname, htype]
  · intro h
    constructor
    · exact ExtTreeMap.ext_getElem? fun name => by simpa [get?] using h (.name name)
    · exact ExtTreeMap.ext_getElem? fun type => by simpa [get?] using h (.type type)

/-! ## Events -/

/-- What can happen to the declarations that make up a rule book. -/
inductive Event where
  | declared (key : RuleKey) (rule : Rule)
  /-- All declarations for a name, or for types of this name, are taken back. -/
  | removed (name : String)

namespace Event

def run (rules : RuleBook) : Event → RuleBook
  | declared key rule => rules.declareKey key rule
  | removed name => (rules.remove name).2

/-- Whether an event replaces or takes back what was declared for a key. -/
def bearsOn (key : RuleKey) : Event → Bool
  | declared other _ => other = key
  | removed name => name = key.relationship

end Event

section Events

variable {event : Event} {events : List Event}

theorem get?_run_of_not_bearsOn (h : event.bearsOn key = false) :
    (event.run rules).get? key = rules.get? key := by
  cases event with
  | declared other rule => rw [Event.run, get?_declareKey, if_neg (of_decide_eq_false h)]
  | removed name => rw [Event.run, get?_remove, if_neg (of_decide_eq_false h)]

theorem get?_run_congr (h : rules.get? key = rules'.get? key) :
    (event.run rules).get? key = (event.run rules').get? key := by
  cases event with
  | declared other rule => rw [Event.run, Event.run, get?_declareKey, get?_declareKey, h]
  | removed name => rw [Event.run, Event.run, get?_remove, get?_remove, h]

/-- A declaration is in force after some events if it is one of them and none of those after it
bears on its key: none declares another rule for the key, and none removes its name. -/
def InForce (events : List Event) (key : RuleKey) (rule : Rule) : Prop :=
  ∃ before after, events = before ++ .declared key rule :: after ∧
    (∀ later, .declared key later ∉ after) ∧ .removed key.relationship ∉ after

theorem inForce_nil : ¬ InForce [] key rule := by
  rintro ⟨before, after, h, _⟩
  simp at h

/-- The last event either declares the rule or leaves it in force. -/
theorem inForce_concat : InForce (events ++ [event]) key rule ↔
    event = .declared key rule ∨ event.bearsOn key = false ∧ InForce events key rule := by
  constructor
  · rintro ⟨before, after, heq, hdeclared, hremoved⟩
    obtain rfl | ⟨rest, last, rfl⟩ := List.eq_nil_or_concat' after
    · obtain ⟨_, hlast⟩ := List.append_inj' heq rfl
      exact .inl (List.singleton_inj.mp hlast)
    · rw [← List.cons_append, ← List.append_assoc] at heq
      obtain ⟨rfl, hlast⟩ := List.append_inj' heq rfl
      rw [← List.singleton_inj.mp hlast] at hdeclared hremoved
      simp only [List.mem_append, List.mem_singleton, not_or] at hdeclared hremoved
      refine .inr ⟨?_, before, rest, rfl, fun later => (hdeclared later).1, hremoved.1⟩
      cases event with
      | declared other later =>
        refine decide_eq_false ?_
        rintro rfl
        exact (hdeclared later).2 rfl
      | removed name =>
        refine decide_eq_false ?_
        rintro rfl
        exact hremoved.2 rfl
  · rintro (rfl | ⟨hbears, before, after, rfl, hdeclared, hremoved⟩)
    · exact ⟨events, [], rfl, by simp, by simp⟩
    · refine ⟨before, after ++ [event], by simp, fun later hmem => ?_, fun hmem => ?_⟩
      · rcases List.mem_append.mp hmem with hmem | hmem
        · exact hdeclared later hmem
        · rw [← List.mem_singleton.mp hmem] at hbears
          simp [Event.bearsOn] at hbears
      · rcases List.mem_append.mp hmem with hmem | hmem
        · exact hremoved hmem
        · rw [← List.mem_singleton.mp hmem] at hbears
          simp [Event.bearsOn] at hbears

/-- The rule book that some events lead to. -/
def ofEvents (events : List Event) : RuleBook := events.foldl Event.run ∅

theorem ofEvents_concat (events : List Event) (event : Event) :
    ofEvents (events ++ [event]) = event.run (ofEvents events) := by
  simp [ofEvents]

/-- By induction on the events, from the last one. -/
theorem get?_eq_some_iff : (ofEvents events).get? key = some rule ↔ InForce events key rule := by
  induction events using List.reverseRecOn with
  | nil =>
    rw [ofEvents, List.foldl_nil, get?_empty]
    exact ⟨fun h => (by cases h), fun h => absurd h inForce_nil⟩
  | append_singleton events event ih =>
    rw [ofEvents_concat, inForce_concat, ← ih]
    cases hbears : event.bearsOn key with
    | false =>
      rw [get?_run_of_not_bearsOn hbears]
      refine ⟨fun h => .inr ⟨rfl, h⟩, ?_⟩
      rintro (rfl | ⟨_, h⟩)
      · simp [Event.bearsOn] at hbears
      · exact h
    | true =>
      cases event with
      | declared other later =>
        have hother : other = key := of_decide_eq_true hbears
        rw [Event.run, get?_declareKey, if_pos hother, hother]
        simp
      | removed name =>
        have hname : name = key.relationship := of_decide_eq_true hbears
        rw [Event.run, get?_remove, if_pos hname]
        simp

theorem get?_eq_none_iff :
    (ofEvents events).get? key = none ↔ ∀ rule, ¬ InForce events key rule := by
  simp only [← get?_eq_some_iff, Option.eq_none_iff_forall_ne_some, ne_eq]

/-- Whatever else happens, what is held under a key depends on the events that bear on it only. -/
theorem get?_filter {p : Event → Bool} (hp : ∀ event, event.bearsOn key = true → p event = true) :
    (ofEvents (events.filter p)).get? key = (ofEvents events).get? key := by
  induction events using List.reverseRecOn with
  | nil => rfl
  | append_singleton events event ih =>
    rw [List.filter_append, ofEvents_concat]
    cases hevent : p event with
    | true =>
      rw [List.filter_cons_of_pos hevent, List.filter_nil, ofEvents_concat]
      exact get?_run_congr ih
    | false =>
      have hbears : event.bearsOn key = false := by
        cases hbears : event.bearsOn key with
        | false => rfl
        | true => rw [hp event hbears] at hevent; cases hevent
      rw [List.filter_cons_of_neg (by simp [hevent]), List.filter_nil, List.append_nil, ih,
        get?_run_of_not_bearsOn hbears]

end Events

/-! ## Edits -/

/-- An edit of a rule book. -/
inductive Edit where
  | declare (name : String) (rule : Rule)
  | declareBetween (type : RelationshipType) (rule : Rule)
  | extend (document : List Declaration)
  | remove (name : String)

namespace Edit

/-- What is left of a rule book, whether the edit succeeds or not. -/
def run (rules : RuleBook) : Edit → RuleBook
  | declare name rule => rules.declare name rule
  | declareBetween type rule => rules.declareBetween type rule
  | extend document => ((RuleBook.extend document).on rules).2
  | remove name => (rules.remove name).2

/-- What an edit does to the declarations, one after the other. -/
def events : Edit → List Event
  | declare name rule => [.declared (.name name) rule]
  | declareBetween type rule => [.declared (.type type) rule]
  | extend document =>
    match document.mapM Declaration.read with
    | .ok read => read.map fun (key, rule) => .declared key rule
    | .error _ => []
  | remove name => [.removed name]

theorem run_eq (rules : RuleBook) (edit : Edit) :
    edit.run rules = edit.events.foldl Event.run rules := by
  cases edit with
  | declare name rule => rfl
  | declareBetween type rule => rfl
  | remove name => rfl
  | extend document =>
    rw [run, events, on_extend]
    cases document.mapM Declaration.read with
    | error cause => rfl
    | ok read =>
      show _ = (read.map fun (key, rule) => Event.declared key rule).foldl Event.run rules
      rw [List.foldl_map]
      rfl

end Edit

/-- The rule book after some edits, beginning with an empty one. -/
def after (edits : List Edit) : RuleBook := edits.foldl Edit.run ∅

/-- All that some edits do to the declarations. -/
def history (edits : List Edit) : List Event := edits.flatMap Edit.events

theorem after_eq (edits : List Edit) : after edits = ofEvents (history edits) := by
  rw [after, ofEvents, history, List.foldl_flatMap]
  exact congrArg (fun f => edits.foldl f ∅) (funext fun _ => funext fun _ => Edit.run_eq _ _)

/-- A rule book that says what is in force after some events. -/
structure Reflects (rules : RuleBook) (events : List Event) : Prop where
  /-- The rule for the exact type takes precedence, whether or not it propagates anything. -/
  ofType : ∀ {type : RelationshipType} {rule : Rule}, InForce events (.type type) rule →
    rules.ruleFor type = rule
  ofName : ∀ {type : RelationshipType} {rule : Rule},
    (∀ own, ¬ InForce events (.type type) own) → InForce events (.name type.name) rule →
      rules.ruleFor type = rule
  otherwise : ∀ {type : RelationshipType}, (∀ own, ¬ InForce events (.type type) own) →
    (∀ rule, ¬ InForce events (.name type.name) rule) → rules.ruleFor type = .none
  /-- Removing a name takes something back if a declaration for it, or for a type of this name, is
  in force. -/
  removes_iff : ∀ {name : String}, (rules.remove name).1 = true ↔
    ∃ key rule, key.relationship = name ∧ InForce events key rule
  isEmpty_iff : rules.isEmpty = true ↔ ∀ key rule, ¬ InForce events key rule

theorem reflects_ofEvents (events : List Event) : (ofEvents events).Reflects events where
  ofType h := by
    rw [ruleFor_eq, get?_eq_some_iff.mpr h]
    rfl
  ofName hnone h := by
    rw [ruleFor_eq, get?_eq_none_iff.mpr hnone, get?_eq_some_iff.mpr h]
    rfl
  otherwise hnone h := by
    rw [ruleFor_eq, get?_eq_none_iff.mpr hnone, get?_eq_none_iff.mpr h]
    rfl
  removes_iff {name} := by
    rw [removes_iff_exists]
    simp only [get?_eq_some_iff]
  isEmpty_iff := by
    rw [RuleBook.isEmpty_iff]
    simp only [get?_eq_none_iff]

/-- Whether an event bears on a relationship type: on the type itself or on its name. -/
def Event.concerns (type : RelationshipType) (event : Event) : Bool :=
  event.bearsOn (.type type) || event.bearsOn (.name type.name)

theorem ruleFor_filter_concerns (type : RelationshipType) (events : List Event) :
    (ofEvents (events.filter (Event.concerns type))).ruleFor type =
      (ofEvents events).ruleFor type := by
  have htype : ∀ event, Event.bearsOn (.type type) event = true → event.concerns type = true :=
    fun event h => by rw [Event.concerns, h, Bool.true_or]
  have hname : ∀ event, Event.bearsOn (.name type.name) event = true →
      event.concerns type = true :=
    fun event h => by rw [Event.concerns, h, Bool.or_true]
  rw [ruleFor_eq, ruleFor_eq, get?_filter htype, get?_filter hname]

/-- After any edits, documents among them, a rule book says what is in force; and of two histories
that have the same in common with a relationship type, whatever they say of other names and other
types, the type is governed by the same rule. -/
theorem reflects_after (edits : List Edit) :
    (after edits).Reflects (history edits) ∧
      ∀ (type : RelationshipType) (others : List Edit),
        (history others).filter (Event.concerns type) =
            (history edits).filter (Event.concerns type) →
          (after others).ruleFor type = (after edits).ruleFor type := by
  refine ⟨?_, fun type others h => ?_⟩
  · rw [after_eq]
    exact reflects_ofEvents (history edits)
  · rw [after_eq, after_eq, ← ruleFor_filter_concerns, h, ruleFor_filter_concerns]

-- A rule that propagates nothing shadows the rule of the name until the name is removed, and a
-- document with a fault in its last declaration declares nothing.
example :
    let link : RelationshipType := ⟨"Link", "Page", "Page"⟩
    let reads : Rule := ⟨.outward, { read := .add }⟩
    let faulty : List Declaration :=
      [{ relationship := "Link", flow := "both" }, { relationship := "Link", flow := "up" }]
    (after [.declare "Link" reads, .declareBetween link .none, .extend faulty]).ruleFor link =
        .none ∧
      (after [.declareBetween link .none, .remove "Link", .declare "Link" reads,
        .extend faulty]).ruleFor link = reads := by
  decide +kernel

end RuleBook
end PermissionGraph
