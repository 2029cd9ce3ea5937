import PermissionGraph.Schema.Rule

/-!
# PermissionGraph.Schema.RuleBook

The rules in force. A rule is declared for every relationship of a name, or for one relationship
type (a name with both endpoint types). The rule of the exact type takes precedence; a type without
a rule of its own and without a rule of its name propagates nothing.

* `ruleFor_declare`, `ruleFor_declareBetween`, `ruleFor_remove`: what each edit does to the rule of
  every relationship type.
* `removes_iff`, `remove_eq_self`: when there is something to remove.
-/

namespace PermissionGraph

open Std

structure RuleBook where
  byName : ExtTreeMap String Rule := ∅
  byType : ExtTreeMap RelationshipType Rule := ∅
  deriving DecidableEq

namespace RuleBook

instance : EmptyCollection RuleBook := ⟨{}⟩
instance : Inhabited RuleBook := ⟨∅⟩

def declare (rules : RuleBook) (name : String) (rule : Rule) : RuleBook :=
  { rules with byName := rules.byName.insert name rule }

def declareBetween (rules : RuleBook) (type : RelationshipType) (rule : Rule) : RuleBook :=
  { rules with byType := rules.byType.insert type rule }

/-- The rule book holding only the rule of group membership. -/
def ofMembership (name : String) : RuleBook := declare ∅ name .membership

/-- Takes back all that is declared about a name, and says whether there was anything. -/
def remove (rules : RuleBook) (name : String) : Bool × RuleBook :=
  let byType := rules.byType.filter fun type _ => type.name != name
  (rules.byName.contains name || rules.byType.size != byType.size,
    { byName := rules.byName.erase name, byType })

/-- The rule governing a relationship type. -/
def ruleFor (rules : RuleBook) (type : RelationshipType) : Rule :=
  match rules.byType[type]? with
  | some rule => rule
  | none => rules.byName.getD type.name .none

def isEmpty (rules : RuleBook) : Bool := rules.byName.isEmpty && rules.byType.isEmpty

@[simp] theorem ruleFor_empty (t : RelationshipType) : (∅ : RuleBook).ruleFor t = .none := by
  have h : (∅ : RuleBook).byType = ∅ ∧ (∅ : RuleBook).byName = ∅ := ⟨rfl, rfl⟩
  simp [ruleFor, h]

theorem ruleFor_declare (rules : RuleBook) (name : String) (rule : Rule) (t : RelationshipType) :
    (rules.declare name rule).ruleFor t =
      if t ∉ rules.byType ∧ name = t.name then rule else rules.ruleFor t := by
  simp only [ruleFor, declare]
  cases h : rules.byType[t]? with
  | some own =>
    have : t ∈ rules.byType := ExtTreeMap.mem_iff_isSome_getElem?.mpr (by simp [h])
    simp [this]
  | none =>
    have : t ∉ rules.byType := by simpa using h
    simp [this, ExtTreeMap.getD_insert]

theorem ruleFor_declareBetween (rules : RuleBook) (type t : RelationshipType) (rule : Rule) :
    (rules.declareBetween type rule).ruleFor t = if type = t then rule else rules.ruleFor t := by
  by_cases h : type = t <;> simp [ruleFor, declareBetween, ExtTreeMap.getElem?_insert, h]

theorem ruleFor_remove (rules : RuleBook) (name : String) (t : RelationshipType) :
    (rules.remove name).2.ruleFor t = if t.name = name then .none else rules.ruleFor t := by
  simp only [ruleFor, remove, ExtTreeMap.getElem?_filter', ExtTreeMap.getD_erase]
  by_cases h : t.name = name
  · cases rules.byType[t]? <;> simp [h, Option.filter]
  · have : ¬ name = t.name := fun e => h e.symm
    cases rules.byType[t]? <;> simp [h, this, Option.filter]

theorem removes_iff {rules : RuleBook} {name : String} :
    (rules.remove name).1 = true ↔ name ∈ rules.byName ∨ ∃ t ∈ rules.byType, t.name = name := by
  rw [remove, Bool.or_eq_true, ExtTreeMap.contains_iff_mem, bne_iff_ne, ne_comm, Ne,
    ExtTreeMap.size_filter_eq_size_iff]
  simp

/-- If there was nothing to take back the rules are what they were. -/
theorem remove_eq_self {rules : RuleBook} {name : String} (h : (rules.remove name).1 = false) :
    (rules.remove name).2 = rules := by
  rw [← Bool.not_eq_true, removes_iff, not_or] at h
  obtain ⟨hn, ht⟩ := h
  have hname : rules.byName.erase name = rules.byName := by
    apply ExtTreeMap.ext_getElem?
    intro other
    by_cases h : name = other
    · subst h
      simp [hn]
    · simp [ExtTreeMap.getElem?_erase, h]
  have htype : rules.byType.filter (fun type _ => type.name != name) = rules.byType := by
    rw [ExtTreeMap.filter_eq_self_iff]
    intro t hmem
    rw [ExtTreeMap.getKey_eq, bne_iff_ne]
    exact fun hname => ht ⟨t, hmem, hname⟩
  simp [remove, hname, htype]

end RuleBook
end PermissionGraph
