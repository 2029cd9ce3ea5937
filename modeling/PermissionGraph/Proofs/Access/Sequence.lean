import PermissionGraph.Proofs.Access.Available
import PermissionGraph.Proofs.Access.Locality

/-!
# PermissionGraph.Proofs.Access.Sequence

Questions asked in turn over one memo. Every question leaves the memo coherent with the graph, so
whatever was asked before, and in whatever order:

* `answers_inTurn`: each question is answered as it is on its own, by an empty memo.
* `answer_of_agree`: what is left in the memo for a question answers it in every graph that agrees
  on what the entry rests on, whatever else is different there.
-/

namespace PermissionGraph

open Std Derivations

variable {ε : Type}

namespace Access

variable {a a' : Access ε} {memo : LocalMemo} {principal : Principal} {id : EntityId}
  {entry : MemoEntry} {questions : List (Principal × EntityId)}

/-- Asks for permissions in turn, each question over the memo that the one before left, and gives
the answers with the memo after the last. -/
def inTurn (a : Access ε) : List (Principal × EntityId) → LocalMemo →
    List (Except (AccessError ε) PermissionSet) × LocalMemo
  | [], memo => ([], memo)
  | (principal, id) :: questions, memo =>
    let (first, memo) := (a.permissions principal id).ask memo
    let (answers, memo) := a.inTurn questions memo
    (first :: answers, memo)

theorem inTurn_cons (a : Access ε) (principal : Principal) (id : EntityId)
    (questions : List (Principal × EntityId)) (memo : LocalMemo) :
    a.inTurn ((principal, id) :: questions) memo =
      (((a.permissions principal id).ask memo).1 ::
          (a.inTurn questions ((a.permissions principal id).ask memo).2).1,
        (a.inTurn questions ((a.permissions principal id).ask memo).2).2) := rfl

theorem Coherent.inTurn (h : a.Coherent memo) (questions : List (Principal × EntityId)) :
    a.Coherent (a.inTurn questions memo).2 := by
  induction questions generalizing memo with
  | nil => exact h
  | cons q questions ih =>
    obtain ⟨principal, id⟩ := q
    rw [inTurn_cons]
    exact ih (h.permissions principal id)

/-! ## Order of questions -/

/-- A coherent memo answers a question as an empty one does. -/
theorem Coherent.ask_permissions_eq_empty (h : a.Coherent memo) (principal : Principal)
    (id : EntityId) :
    ((a.permissions principal id).ask memo).1 = ((a.permissions principal id).ask ∅).1 := by
  rw [ask_permissions, ask_permissions]
  exact answer_congr h.trusts trusts_empty

theorem Coherent.fst_inTurn (h : a.Coherent memo) (questions : List (Principal × EntityId)) :
    (a.inTurn questions memo).1 =
      questions.map fun q => ((a.permissions q.1 q.2).ask ∅).1 := by
  induction questions generalizing memo with
  | nil => rfl
  | cons q questions ih =>
    obtain ⟨principal, id⟩ := q
    rw [inTurn_cons, List.map_cons, ih (h.permissions principal id),
      h.ask_permissions_eq_empty principal id]

/-- Questions asked in turn, beginning with an empty memo, are answered as each is on its own:
permissions or error, and the same error. -/
theorem answers_inTurn (a : Access ε) (questions : List (Principal × EntityId)) :
    (a.inTurn questions ∅).1 = questions.map fun q => ((a.permissions q.1 q.2).ask ∅).1 :=
  coherent_empty.fst_inTurn questions

/-! ## Changes elsewhere -/

theorem isSuperuser_of_agree (hsettings : a.settings = a'.settings)
    (hagree : ∀ user, principal = .user user → a.view.AgreeOn a'.view user) :
    a'.isSuperuser principal = a.isSuperuser principal := by
  cases principal with
  | superuser => rfl
  | anonymous => rfl
  | user user =>
    have hentity : a'.entity user = a.entity user := by
      rw [entity, entity, (hagree user rfl).entity]
    rw [isSuperuser, isSuperuser, hsettings, hentity]

/-- An entry that questions leave in a memo answers the question in every graph that agrees with
theirs on all that the entry rests on. -/
theorem answer_of_agree (hsuper : a.isSuperuser principal = .ok false)
    (hentry : (a.inTurn questions ∅).2.memo.get? ⟨principal, id⟩ = some entry)
    (hrules : a.view.rules = a'.view.rules) (hsettings : a.settings = a'.settings)
    (hincidents : ∀ x, ∃ found, a'.view.incidents x = .ok found)
    (hagree : ∀ x ∈ entry.dependsOn, a.view.AgreeOn a'.view x) :
    ∃ after, a'.answer ∅ principal id = .ok (entry.permissions, after) ∧
      after.memo.get? ⟨principal, id⟩ = some entry := by
  have hcoherent := coherent_empty.inTurn (a := a) questions
  have he := (hcoherent.own principal).correct hentry
  have hsuper' : a'.isSuperuser principal = .ok false := by
    rw [isSuperuser_of_agree hsettings, hsuper]
    rintro user rfl
    exact hagree user (mem_dependsOn he .refl (.inr rfl))
  obtain ⟨members', hm'⟩ := exists_members hincidents principal
  have he' := entries_of_agree hrules hsettings hm' he hagree
  obtain ⟨after, hanswer, hleft⟩ := exists_answer_empty hsuper' he'
  exact ⟨after, hanswer, (hleft id .refl).trans he'⟩

/-- A page that can be read by a group, linked to another page. -/
def libraryTables : Tables where
  entities := .ofList ([
    (⟨1⟩, .node "User"), (⟨2⟩, .node "Group"), (⟨10⟩, .node "Page"), (⟨11⟩, .node "Page"),
    (⟨20⟩, .relationship "Link" ⟨10⟩ ⟨11⟩), (⟨21⟩, .relationship "CONTAINS" ⟨2⟩ ⟨1⟩)] :
    List (EntityId × Entity))
  grants := ((∅ : Grants).grant ⟨2⟩ ⟨10⟩ (.single .read)).2
  rules := (RuleBook.ofMembership "CONTAINS").declare "Link" ⟨.outward, { read := .add }⟩

/-- The same pages with groups in a ring beside them that own the link and see each other. -/
def annexTables : Tables where
  entities := .ofList ([
    (⟨1⟩, .node "User"), (⟨2⟩, .node "Group"), (⟨10⟩, .node "Page"), (⟨11⟩, .node "Page"),
    (⟨20⟩, { Entity.relationship "Link" ⟨10⟩ ⟨11⟩ with owner := some ⟨3⟩ }),
    (⟨21⟩, .relationship "CONTAINS" ⟨2⟩ ⟨1⟩), (⟨3⟩, .node "Group"), (⟨4⟩, .node "Group"),
    (⟨22⟩, .relationship "CONTAINS" ⟨3⟩ ⟨4⟩), (⟨23⟩, .relationship "CONTAINS" ⟨4⟩ ⟨3⟩),
    (⟨24⟩, .relationship "Link" ⟨3⟩ ⟨4⟩), (⟨25⟩, .relationship "Link" ⟨4⟩ ⟨3⟩)] :
    List (EntityId × Entity))
  grants := (libraryTables.grants.grant ⟨1⟩ ⟨4⟩ .full).2
  rules := libraryTables.rules

def library : Access Unavailable := { view := libraryTables.recover.view, settings := {} }

def annex : Access Unavailable := { view := annexTables.recover.view, settings := {} }

theorem answer_of_agree_annex : ∃ entry after,
    (library.inTurn [(.user ⟨2⟩, ⟨11⟩), (.user ⟨1⟩, ⟨11⟩)] ∅).2.memo.get? ⟨.user ⟨1⟩, ⟨11⟩⟩ =
        some entry ∧
      entry.dependsOn.toList = [⟨1⟩, ⟨2⟩, ⟨10⟩, ⟨11⟩] ∧
      annex.answer ∅ (.user ⟨1⟩) ⟨11⟩ = .ok (.single .read, after) ∧
      after.memo.get? ⟨.user ⟨1⟩, ⟨11⟩⟩ = some entry := by
  have hleft : ((library.inTurn [(.user ⟨2⟩, ⟨11⟩), (.user ⟨1⟩, ⟨11⟩)] ∅).2.memo.get?
      ⟨.user ⟨1⟩, ⟨11⟩⟩).map (fun e => (e.permissions, e.dependsOn.toList)) =
        some (.single .read, [⟨1⟩, ⟨2⟩, ⟨10⟩, ⟨11⟩]) := by
    decide +kernel
  obtain ⟨entry, hentry, hfields⟩ := Option.map_eq_some_iff.mp hleft
  injection hfields with hpermissions hdependsOn
  have hrecords : ∀ x ∈ ([⟨1⟩, ⟨2⟩, ⟨10⟩, ⟨11⟩] : List EntityId),
      library.view.entity? x = annex.view.entity? x ∧
        library.view.incidents x = annex.view.incidents x ∧ x ≠ ⟨4⟩ := by
    decide +kernel
  have hagree : ∀ x ∈ entry.dependsOn, library.view.AgreeOn annex.view x := by
    intro x hx
    rw [← ExtTreeSet.mem_toList, hdependsOn] at hx
    obtain ⟨hentity, hincidents, hne⟩ := hrecords x hx
    refine ⟨hentity, hincidents, fun q => ?_⟩
    have hlookup := Grants.lookup_grant libraryTables.grants ⟨1⟩ ⟨4⟩ q x .full
    rw [if_neg fun h => hne h.2.symm] at hlookup
    show libraryTables.recover.view.granted q x = annexTables.recover.view.granted q x
    rw [Tables.granted_recover, Tables.granted_recover, annexTables, hlookup]
  have hrules : library.view.rules = annex.view.rules := rfl
  obtain ⟨after, hanswer, hafter⟩ := answer_of_agree (by decide +kernel) hentry hrules rfl
    annexTables.available_recover.incidents hagree
  rw [hpermissions] at hanswer
  exact ⟨entry, after, hentry, hdependsOn, hanswer, hafter⟩

end Access
end PermissionGraph
