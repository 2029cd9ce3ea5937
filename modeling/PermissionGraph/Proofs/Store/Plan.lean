import PermissionGraph.Store.Transaction
import PermissionGraph.Proofs.Store.Remove

/-!
# PermissionGraph.Proofs.Store.Plan

What an action on a transaction comes to. Its steps check, act on the snapshot and list changes, and
each of them could fail after another has been taken. On a consistent snapshot none does: by the
snapshot alone, an action is refused before it has done anything or settles on an edit, which it
then makes as a whole (`Plan`, `Transaction.carry`).

* `settles_bind`, `settles_link`, `settles_delete` and so on: what is so of the edit that a plan
  settles on.
* `on_deleteEntity`, `on_update`, `on_writeGrants`, `on_removeRule`, `on_loadRules`: each action
  carries out a plan.
-/

namespace PermissionGraph

open Std Snapshot

/-- An edit of a snapshot, with the changes that tell of it. -/
abbrev Edit := Snapshot × List Change

/-- What a write settles on: an edit, or none because there is nothing to alter. -/
abbrev Plan := Except StoreError (Option Edit)

namespace Transaction

variable {t : Transaction} {α : Type}

/-! ## Carrying out -/

/-- Takes over a new snapshot with the changes that led to it. -/
def write (t : Transaction) (s : Snapshot) (changes : List Change) : Transaction :=
  changes.foldl note { t with current := s }

theorem foldl_note (t : Transaction) (changes : List Change) :
    changes.foldl note t =
      { t with
        changes := t.changes ++ changes
        memo := changes.foldl (fun m change => (m.invalidate change).2) t.memo } := by
  induction changes generalizing t with
  | nil => simp
  | cons change changes ih =>
    rw [List.foldl_cons, ih, List.foldl_cons]
    simp [note, List.append_assoc]

@[simp] theorem current_write (t : Transaction) (s : Snapshot) (changes : List Change) :
    (t.write s changes).current = s := by
  rw [write, foldl_note]

@[simp] theorem base_write (t : Transaction) (s : Snapshot) (changes : List Change) :
    (t.write s changes).base = t.base := by
  rw [write, foldl_note]

@[simp] theorem changes_write (t : Transaction) (s : Snapshot) (changes : List Change) :
    (t.write s changes).changes = t.changes ++ changes := by
  rw [write, foldl_note]

@[simp] theorem memo_write (t : Transaction) (s : Snapshot) (changes : List Change) :
    (t.write s changes).memo =
      changes.foldl (fun m change => (m.invalidate change).2) t.memo := by
  rw [write, foldl_note]

/-- Takes over an edit, if there is one. -/
def take (t : Transaction) : Option Edit → Transaction
  | none => t
  | some (s, changes) => t.write s changes

@[simp] theorem base_take (t : Transaction) (edit : Option Edit) : (t.take edit).base = t.base := by
  cases edit with
  | none => rfl
  | some edit => exact t.base_write edit.1 edit.2

/-- Carries a plan out. One that fails is carried out by doing nothing. -/
def carry (t : Transaction) : Plan → Except StoreError Unit × Transaction
  | .ok edit => (.ok (), t.take edit)
  | .error cause => (.error cause, t)

@[simp] theorem carry_ok (t : Transaction) (edit : Option Edit) :
    t.carry (.ok edit) = (.ok (), t.take edit) := rfl

@[simp] theorem carry_error (t : Transaction) (cause : StoreError) :
    t.carry (.error cause) = (.error cause, t) := rfl

end Transaction

/-! ## Plans -/

/-- Whether an edit has a property, if the plan is to make one. -/
def Plan.Settles (plan : Plan) (P : Edit → Prop) : Prop := ∀ edit, plan = .ok (some edit) → P edit

section Settles

variable {P : Edit → Prop} {α : Type}

theorem settles_some {edit : Edit} (h : P edit) : Plan.Settles (.ok (some edit)) P := by
  rintro _ ⟨⟩
  exact h

theorem settles_none : Plan.Settles (.ok none) P := nofun

theorem settles_error (cause : StoreError) : Plan.Settles (.error cause) P := nofun

theorem settles_bind {read : Except StoreError α} {plan : α → Plan}
    (h : ∀ a, read = .ok a → (plan a).Settles P) : Plan.Settles (read >>= plan) P := by
  cases read with
  | error cause => exact settles_error cause
  | ok a => exact h a rfl

end Settles

namespace Snapshot

variable {s : Snapshot} {id : EntityId} {P : Edit → Prop}

def planLink (s : Snapshot) (id : EntityId) (name : String) (source target : EntityId) : Plan := do
  let _ ← s.requireNode source
  let _ ← s.requireNode target
  return some (s.link id name source target, [.relationship id source target])

theorem settles_link {name : String} {source target : EntityId}
    (h : s.IsNode source → s.IsNode target →
      P (s.link id name source target, [.relationship id source target])) :
    (s.planLink id name source target).Settles P :=
  settles_bind fun _ hsource => settles_bind fun _ htarget =>
    settles_some (h (exists_requireNode_iff.mp ⟨_, hsource⟩)
      (exists_requireNode_iff.mp ⟨_, htarget⟩))

def planDelete (s : Snapshot) (id : EntityId) : Plan := do
  let (changes, s) ← (removeEntity id).outcome s
  return some (s, changes)

theorem settles_delete (h : ∀ e, s.entity? id = some e →
      ∃ changes s', (removeEntity id).on s = (.ok changes, s') ∧ P (s', changes)) :
    (s.planDelete id).Settles P := by
  rw [planDelete]
  cases hr : s.requireEntity id with
  | error cause =>
    rw [Action.outcome, on_removeEntity_of_error hr]
    exact settles_error cause
  | ok e =>
    obtain ⟨changes, s', hon, hP⟩ := h e (requireEntity_eq_ok_iff.mp hr)
    rw [Action.outcome, hon]
    exact settles_some hP

def planUpdate (s : Snapshot) (id : EntityId) (f : Entity → Entity) : Plan := do
  let e ← s.requireEntity id
  return some ({ s with entities := s.entities.insert id (f e) }, [.entity id])

theorem settles_update {f : Entity → Entity} (h : ∀ e, s.entity? id = some e →
      P ({ s with entities := s.entities.insert id (f e) }, [.entity id])) :
    (s.planUpdate id f).Settles P :=
  settles_bind fun e he => settles_some (h e (requireEntity_eq_ok_iff.mp he))

def planGrants (s : Snapshot) (principal entity : EntityId) (changes : PermissionSet → Bool)
    (f : Grants → Bool × Grants) : Plan := do
  let _ ← s.requirePrincipal principal
  let _ ← s.requireEntity entity
  return if changes (s.grants.lookup principal entity) then
    some ({ s with grants := (f s.grants).2 }, [.grant principal entity]) else none

theorem settles_grants {principal entity : EntityId} {changes : PermissionSet → Bool}
    {f : Grants → Bool × Grants} (h : s.IsNode principal →
      (∃ shape, s.shape? entity = some shape) →
      P ({ s with grants := (f s.grants).2 }, [.grant principal entity])) :
    (s.planGrants principal entity changes f).Settles P := by
  refine settles_bind fun e hprincipal => settles_bind fun e' hentity => ?_
  have hnode := exists_requireNode_iff.mp ⟨e, requirePrincipal_eq_ok_iff.mp hprincipal⟩
  have hshape := shape_of_entity (requireEntity_eq_ok_iff.mp hentity)
  cases hc : changes (s.grants.lookup principal entity) with
  | false => exact settles_none
  | true => exact settles_some (h hnode ⟨_, hshape⟩)

def planRules (s : Snapshot) (rules : RuleBook) : Option Edit := some ({ s with rules }, [.rules])

theorem settles_removeRule {removed : Bool} {rules : RuleBook}
    (h : ∀ rules, P ({ s with rules }, [.rules])) :
    Plan.Settles (.ok (if removed then s.planRules rules else none)) P := by
  cases removed with
  | true => exact settles_some (h rules)
  | false => exact settles_none

theorem settles_loadRules {loaded : Except SchemaError (Unit × RuleBook)}
    (h : ∀ rules, P ({ s with rules }, [.rules])) :
    Plan.Settles ((loaded.mapError .schema).map (s.planRules ·.2)) P := by
  cases loaded with
  | error cause => exact settles_error (.schema cause)
  | ok r => exact settles_some (h r.2)

end Snapshot

namespace Transaction

/-! ## Actions on a transaction -/

variable {t : Transaction} {α : Type} {act : Action Transaction StoreError Unit} {plan : Plan}

/-- An action that is refused by what it finds in the snapshot, and else goes on. -/
theorem on_guard (require : Snapshot → Except StoreError α) (h : act.on t = t.carry plan) :
    (do
      let _ ← require (← get).current
      act : Action Transaction StoreError Unit).on t =
      t.carry (require t.current >>= fun _ => plan) := by
  cases hr : require t.current <;> simp [Action.on_bind, hr, h]

/-- In a consistent snapshot an entity that exists can be deleted with all that goes with it, so a
deletion does not fail half-way. -/
theorem on_deleteEntity (hs : t.current.Consistent) (id : EntityId) :
    (deleteEntity id).on t = t.carry (t.current.planDelete id) := by
  cases hr : t.current.requireEntity id with
  | error cause =>
    have hon := on_removeEntity_of_error hr
    simp [deleteEntity, planDelete, Action.outcome, Action.on_bind, hr, hon]
  | ok e =>
    obtain ⟨changes, s, hon, _⟩ := leads_removeEntity hs (requireEntity_eq_ok_iff.mp hr)
    simp [deleteEntity, planDelete, Action.outcome, Action.on_bind, hr, hon, working,
      record, take, write]

theorem on_update (t : Transaction) (id : EntityId) (f : Entity → Entity) :
    (update id f).on t = t.carry (t.current.planUpdate id f) := by
  cases hr : t.current.requireEntity id with
  | error cause => simp [update, planUpdate, Action.on_bind, hr]
  | ok e =>
    have hon := on_modifyEntity (f := f) (requireEntity_eq_ok_iff.mp hr)
    simp [update, planUpdate, Action.on_bind, hr, hon, working, record, take, write]

theorem on_writeGrants (t : Transaction) (principal entity : EntityId)
    (changes : PermissionSet → Bool) (f : Grants → Bool × Grants) :
    (writeGrants principal entity changes f).on t =
      t.carry (t.current.planGrants principal entity changes f) := by
  cases hp : t.current.requirePrincipal principal with
  | error cause => simp [writeGrants, planGrants, Action.on_bind, hp]
  | ok e =>
    cases he : t.current.requireEntity entity with
    | error cause => simp [writeGrants, planGrants, Action.on_bind, hp, he]
    | ok e' =>
      cases hc : changes (t.current.grants.lookup principal entity) <;>
        simp [writeGrants, onGrants, planGrants, Action.on_bind, hp, he, hc, working, record, take,
          write, Except.map]

theorem on_removeRule (t : Transaction) (name : String) :
    (removeRule name).on t = (.ok (t.current.rules.remove name).1,
      t.take (if (t.current.rules.remove name).1 then
        t.current.planRules (t.current.rules.remove name).2 else none)) := by
  cases hr : (t.current.rules.remove name).1 with
  | false =>
    -- the rules are stored again, but they are the same
    have hsame : (t.current.rules.remove name).2 = t.current.rules := RuleBook.remove_eq_self hr
    simp [removeRule, onRules, Action.on_bind, hr, hsame, working, take]
  | true =>
    simp [removeRule, onRules, planRules, Action.on_bind, hr, working, record, take, write,
      Except.map]

theorem on_loadRules (t : Transaction) (document : List Declaration) :
    (loadRules document).on t = t.carry
      ((((RuleBook.extend document).outcome t.current.rules).mapError .schema).map
        (t.current.planRules ·.2)) := by
  rcases hon : (RuleBook.extend document).on t.current.rules with ⟨_ | _, rules⟩ <;>
    simp [loadRules, onRules, planRules, Action.outcome, Action.on_bind, hon, working, record,
      carry, take, write, Except.map, Except.mapError]

end Transaction

end PermissionGraph
