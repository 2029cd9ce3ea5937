import PermissionGraph.Action
import PermissionGraph.Schema.RuleBook

/-!
# PermissionGraph.Schema.Declaration

Rule declarations, as they stand in a rule document: all in words. Reading a declaration checks its
words in a fixed order (the flow; kind and effect of each entry, by ascending kind word; last
whether the endpoint types are both named or both open), and the first fault found is the one
reported. A document is read as a whole before any of it is declared, so a faulty one changes
nothing.
-/

namespace PermissionGraph

open Std

/-- A rule as it is written down. -/
structure Declaration where
  relationship : String
  sourceType : Option String := none
  targetType : Option String := none
  flow : String
  /-- The word of an effect for each of some kind words. -/
  effects : ExtTreeMap String String := ∅
  deriving DecidableEq

/-- What a rule is declared for. -/
inductive RuleKey where
  | name (name : String)
  | type (type : RelationshipType)
  deriving DecidableEq, Repr

namespace Declaration

/-- Adds the effects written in a list of entries to a rule. -/
def readEffects (rule : Rule) : List (String × String) → Except SchemaError Rule
  | [] => .ok rule
  | (kind, effect) :: rest => do
    let k ← Permission.parse kind
    let e ← Effect.parse effect
    readEffects (rule.setEffect k e) rest

def readKey (d : Declaration) : Except SchemaError RuleKey :=
  match d.sourceType, d.targetType with
  | none, none => .ok (.name d.relationship)
  | some source, some target => .ok (.type ⟨d.relationship, source, target⟩)
  | none, some _ | some _, none => .error (.incompletePair d.relationship)

def read (d : Declaration) : Except SchemaError (RuleKey × Rule) := do
  let flow ← Flow.parse d.flow
  let rule ← readEffects { flow } d.effects.toList
  let key ← d.readKey
  return (key, rule)

end Declaration

namespace RuleBook

def declareKey (rules : RuleBook) : RuleKey → Rule → RuleBook
  | .name name, rule => rules.declare name rule
  | .type type, rule => rules.declareBetween type rule

/-- Declares every rule of a document, in order; the last declaration of a key wins. -/
def extend (document : List Declaration) : Action RuleBook SchemaError Unit := do
  let read ← (document.mapM Declaration.read : Except SchemaError (List (RuleKey × Rule)))
  modify fun rules => read.foldl (fun rules (key, rule) => rules.declareKey key rule) rules

/-- The rule book that a document makes by itself. -/
def load (document : List Declaration) : Except SchemaError RuleBook :=
  ((extend document).outcome ∅).map Prod.snd

theorem on_extend (document : List Declaration) (rules : RuleBook) :
    (extend document).on rules =
      match document.mapM Declaration.read with
      | .ok read => (.ok (), read.foldl (fun rules r => rules.declareKey r.1 r.2) rules)
      | .error cause => (.error cause, rules) := by
  rw [extend, Action.on_bind, Action.on_lift]
  cases document.mapM Declaration.read <;> rfl

end RuleBook
end PermissionGraph
