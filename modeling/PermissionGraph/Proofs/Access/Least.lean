import PermissionGraph.Graph.Tables
import PermissionGraph.Proofs.Access.Additive
import PermissionGraph.Proofs.Access.Available
import PermissionGraph.Proofs.Access.Coherent

/-!
# PermissionGraph.Proofs.Access.Least

Permissions as a least solution. When no rule takes a kind away, what a principal holds on the
entities that a question reaches is the least assignment in which every entity has its base, what
propagated inputs give, and reading where both its endpoints can be read (`answer_isLeast`). The
resolution gets there component by component, each settled within its bound of rounds.
-/

namespace PermissionGraph

open Std Derivations

variable {ε : Type}

/-! ## Rules that only add -/

/-- No rule in force takes a kind away. -/
structure RuleBook.RemovesNothing (rules : RuleBook) : Prop where
  byName : ∀ (name : String) (rule : Rule), rules.byName[name]? = some rule →
    ∀ k, rule.effect k ≠ .remove
  byType : ∀ (type : RelationshipType) (rule : Rule), rules.byType[type]? = some rule →
    ∀ k, rule.effect k ≠ .remove

theorem RuleBook.RemovesNothing.effect_ruleFor {rules : RuleBook} (h : rules.RemovesNothing)
    (type : RelationshipType) (k : Permission) : (rules.ruleFor type).effect k ≠ .remove := by
  rw [ruleFor]
  split
  · next rule hrule => exact h.byType type rule hrule k
  · rw [ExtTreeMap.getD_eq_getD_getElem?]
    cases hrule : rules.byName[type.name]? with
    | some rule => exact h.byName type.name rule hrule k
    | none => cases k <;> decide

theorem RuleBook.removesNothing_empty : (∅ : RuleBook).RemovesNothing where
  byName name rule h := by
    have hempty : (∅ : RuleBook).byName = ∅ := rfl
    simp [hempty] at h
  byType type rule h := by
    have hempty : (∅ : RuleBook).byType = ∅ := rfl
    simp [hempty] at h

theorem RuleBook.RemovesNothing.declare {rules : RuleBook} {rule : Rule} (h : rules.RemovesNothing)
    (hrule : ∀ k, rule.effect k ≠ .remove) (name : String) :
    (rules.declare name rule).RemovesNothing where
  byName other found hfound := by
    rw [RuleBook.declare, ExtTreeMap.getElem?_insert] at hfound
    split at hfound
    · injection hfound with hfound
      rw [← hfound]
      exact hrule
    · exact h.byName other found hfound
  byType := h.byType

theorem RuleBook.RemovesNothing.declareBetween {rules : RuleBook} {rule : Rule}
    (h : rules.RemovesNothing) (hrule : ∀ k, rule.effect k ≠ .remove) (type : RelationshipType) :
    (rules.declareBetween type rule).RemovesNothing where
  byName := h.byName
  byType other found hfound := by
    rw [RuleBook.declareBetween, ExtTreeMap.getElem?_insert] at hfound
    split at hfound
    · injection hfound with hfound
      rw [← hfound]
      exact hrule
    · exact h.byType other found hfound

theorem Derivation.adds_of_eq_ok {view : GraphView ε} {settings : Settings} {members : List Member}
    {principal : Principal} {id : EntityId} {e : Entity} {d : Derivation}
    (hrules : view.rules.RemovesNothing)
    (h : Derivation.of view settings members principal id e = .ok d) : d.Adds := by
  obtain ⟨incidents, _, _, hinputs⟩ := of_eq_ok_iff.mp h
  intro i hi
  rw [hinputs, List.mem_append] at hi
  rcases hi with hi | hi
  · obtain ⟨source, target, _, rfl⟩ := exists_of_mem_endpointInputs hi
    trivial
  · obtain ⟨incident, _, _, rfl⟩ := mem_propagatedInputs.mp hi
    exact hrules.effect_ruleFor incident.relationshipType

theorem Access.adds_derivations {a : Access ε} {principal : Principal}
    (hrules : a.view.rules.RemovesNothing) : (a.derivations principal).Adds := by
  intro id d hd
  obtain ⟨members, e, _, _, hof⟩ := exists_of_getElem?_derivations hd
  exact Derivation.adds_of_eq_ok hrules hof

/-! ## Solutions -/

namespace Derivations

variable {D members : Derivations} {root id : EntityId} {d : Derivation}

/-- What every entity that is reached holds is its base with what it gains from what the others
hold. -/
def Solves (D : Derivations) (root : EntityId) (X : EntityId → PermissionSet) : Prop :=
  ∀ id, D.Reaches root id → ∃ d, D[id]? = some d ∧ X id = d.gain X

/-- A solution that lies below all others on what is reached. -/
structure IsLeastSolution (D : Derivations) (root : EntityId) (X : EntityId → PermissionSet) :
    Prop where
  solves : D.Solves root X
  le : ∀ Y, D.Solves root Y → ∀ id, D.Reaches root id → X id ≤ Y id

theorem IsComponent.adds (hD : D.Adds) (hc : IsComponent D members) : members.Adds :=
  fun id d hd => hD id d (hc.agree hd)

/-- Where nothing is taken away, what the entries say of an entity is its base with what it gains
from what they say of others. -/
theorem permissions_entries_eq_gain (hD : D.Adds) (h : D.IsComplete id) (hd : D[id]? = some d) :
    D.entries.permissions id = d.gain D.entries.permissions := by
  obtain ⟨members, hc, hin, hall⟩ := h.exists_component
  rw [permissions_entries_eq_combine hc hall hin (Settling.stabilises_of_adds (hc.adds hD)) hd,
    Derivation.combine_of_adds (hD id d hd)]

/-- Where nothing is taken away, the entries lie below every assignment that a round only lowers:
what a component draws on outside lies below, so what it holds does after every round. -/
theorem permissions_entries_le_of_gain_le (hD : D.Adds) (h : D.IsComplete root)
    {Y : EntityId → PermissionSet}
    (hY : ∀ (x : EntityId) (d : Derivation), D.Reaches root x → D[x]? = some d → d.gain Y ≤ Y x)
    (hr : D.Reaches root id) : D.entries.permissions id ≤ Y id := by
  refine IsComplete.induction (P := fun x => D.Reaches root x → D.entries.permissions x ≤ Y x) ?_
    (h.of_reaches hr) hr
  intro members hc hall ih m hm hrm
  have hreached : ∀ x ∈ members, D.Reaches root x :=
    fun x hx => hrm.trans ((hc.mem_iff hm x).mp hx).1
  obtain ⟨n, _, _, hsettle⟩ := @Settling.stabilises_of_adds members D.entries.permissions
    (hc.adds hD)
  rw [← held_settle hc hall, hsettle]
  obtain ⟨d, hd⟩ := mem_iff_getElem?.mp hm
  refine Settling.held_after_le (hc.adds hD) ?_ ?_ m d hd
  · intro x y hy o ho hnot
    have hx := mem_of_getElem? hy
    have hdraws : D.Draws x o := ⟨y, hc.agree hy, ho⟩
    exact ih x hx o hdraws hnot ((hreached x hx).trans hdraws.reaches)
  · intro x y hy
    exact hY x y (hreached x (mem_of_getElem? hy)) (hc.agree hy)

theorem permissions_entries_le (hD : D.Adds) (h : D.IsComplete root) {Y : EntityId → PermissionSet}
    (hY : D.Solves root Y) (hr : D.Reaches root id) : D.entries.permissions id ≤ Y id := by
  refine permissions_entries_le_of_gain_le hD h (fun x d hx hd => ?_) hr
  obtain ⟨d', hd', hsolved⟩ := hY x hx
  have hdd : d' = d := Option.some_inj.mp (hd'.symm.trans hd)
  rw [hsolved, hdd]
  exact PermissionSet.le_refl _

theorem isLeastSolution_entries (hD : D.Adds) (h : D.IsComplete root) :
    D.IsLeastSolution root D.entries.permissions where
  solves id hr := by
    obtain ⟨d, hd⟩ := mem_iff_getElem?.mp (h id hr)
    exact ⟨d, hd, permissions_entries_eq_gain hD (h.of_reaches hr) hd⟩
  le _ hY _ hr := permissions_entries_le hD h hY hr

end Derivations

namespace Access

variable {a : Access ε} {principal : Principal} {root id : EntityId}

/-- What it takes for a question to an empty memo to be answered by the least solution over all
that it reaches. -/
structure AnswersLeast (a : Access ε) (principal : Principal) (root : EntityId)
    (X : EntityId → PermissionSet) (memo : LocalMemo) : Prop where
  answer : a.answer ∅ principal root = .ok (X root, memo)
  least : (a.derivations principal).IsLeastSolution root X
  /-- Every entity that is reached is left in the memo. -/
  remembered : ∀ id, (a.derivations principal).Reaches root id →
    ∃ entry, memo.memo.get? ⟨principal, id⟩ = some entry ∧ entry.permissions = X id
  /-- No component needs the fallback, whatever is held outside of it. -/
  stabilises : ∀ members : Derivations,
    (∀ (id : EntityId) (d : Derivation), members[id]? = some d →
      (a.derivations principal)[id]? = some d) →
    ∀ outside, Settling.Stabilises members outside

/-- When look-ups succeed, no rule takes a kind away, and the principal is not exempt from checks,
permissions are the least solution over all that they hang on. -/
theorem answer_isLeast (hview : a.view.Available)
    (hexists : ∀ id, (a.derivations principal).Reaches root id →
      ∃ e, a.view.entity? id = .ok (some e))
    (hrules : a.view.rules.RemovesNothing) (hsuper : a.isSuperuser principal = .ok false) :
    ∃ X memo, a.AnswersLeast principal root X memo := by
  have hcomplete := isComplete_of_exists hview hexists
  have hadds := @adds_derivations ε a principal hrules
  obtain ⟨e, he⟩ := exists_entries hcomplete
  have hanswer : a.answer ∅ principal root = (a.resolve principal root).outcome ∅ := by
    rw [answer_eq, hsuper]
    show a.recollect ∅ principal root = _
    rw [recollect, recalled_empty]
  cases hresolve : (a.resolve principal root).outcome ∅ with
  | error cause =>
    have hmap := resolve_of_entries a.trusts_empty he
    rw [hresolve] at hmap
    cases hmap
  | ok p =>
    obtain ⟨s, memo⟩ := p
    obtain ⟨_, e', _, he', hs, _⟩ := resolve_eq_ok a.trusts_empty hresolve
    refine ⟨(a.derivations principal).entries.permissions, memo, ?_,
      isLeastSolution_entries hadds hcomplete, ?_, ?_⟩
    · rw [hanswer, hresolve, hs, Entries.permissions, he']
    · intro id hr
      obtain ⟨entry, hentry⟩ := exists_entries (hcomplete.of_reaches hr)
      refine ⟨entry, (memo_resolve_empty hresolve hr).trans hentry, ?_⟩
      rw [Entries.permissions, hentry]
    · intro members hsub outside
      exact Settling.stabilises_of_adds fun id d hd => hadds id d (hsub id d hd)

/-- Two entities that pass reading on to each other, one of them also to itself, and a relationship
between relationships that can be read over its endpoints. -/
def ringTables : Tables where
  entities := .ofList ([
    (⟨1⟩, .node "User"), (⟨10⟩, .node "Page"), (⟨11⟩, .node "Page"),
    (⟨20⟩, .relationship "Link" ⟨10⟩ ⟨11⟩), (⟨21⟩, .relationship "Link" ⟨11⟩ ⟨10⟩),
    (⟨22⟩, .relationship "Link" ⟨10⟩ ⟨10⟩), (⟨23⟩, .relationship "Note" ⟨20⟩ ⟨21⟩)] :
    List (EntityId × Entity))
  grants := ((∅ : Grants).grant ⟨1⟩ ⟨11⟩ (.single .read)).2
  rules := RuleBook.declare ∅ "Link" ⟨.outward, { read := .add }⟩

theorem answer_isLeast_ring :
    ∃ X memo, (Access.mk ringTables.recover.view {} ∅).AnswersLeast (.user ⟨1⟩) ⟨23⟩ X memo ∧
      X ⟨23⟩ = .single .read := by
  have hroot : ∃ e, ringTables.recover.view.entity? ⟨23⟩ = .ok (some e) :=
    ⟨.relationship "Note" ⟨20⟩ ⟨21⟩, by decide +kernel⟩
  have hrules : ringTables.recover.view.rules.RemovesNothing :=
    RuleBook.removesNothing_empty.declare (fun k => by cases k <;> decide) "Link"
  obtain ⟨X, memo, h⟩ := @answer_isLeast _ (Access.mk ringTables.recover.view {} ∅) (.user ⟨1⟩) ⟨23⟩
    ringTables.available_recover
    (fun _ hr => exists_of_reaches (Tables.closed_recover (by decide +kernel)) hroot hr)
    hrules (by decide +kernel)
  have hanswer : ((Access.mk ringTables.recover.view {} ∅).answer ∅ (.user ⟨1⟩) ⟨23⟩).map Prod.fst =
      .ok (.single .read) := by
    decide +kernel
  rw [h.answer] at hanswer
  injection hanswer with hanswer
  exact ⟨X, memo, h, hanswer⟩

end Access
end PermissionGraph
