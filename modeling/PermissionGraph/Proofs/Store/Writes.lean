import PermissionGraph.Store.Write
import PermissionGraph.Proofs.Store.Plan

/-!
# PermissionGraph.Proofs.Store.Writes

What a write does, said once for all writes. By the snapshot of the transaction alone a write is
refused or settles on an edit (`Write.plan`), and on a consistent snapshot all the steps that it
takes on the transaction and on the store come to carrying that plan out (`run_eq`). A write on
behalf of an actor asks first whether the actor may write.

* `settles_plan`: the edit leads to a consistent snapshot, and it is never without changes.
* `on_plain`, `on_insertNode`, `on_insertRelationship`, `on_onBehalf`: each kind of write.
* `ran_run`: the two ways in which a write can have run.
-/

namespace PermissionGraph

open Std Snapshot

namespace Database

/-- A store after a write. An identifier is taken by what creates an entity, and by nothing else. -/
def after (db : Database) : Written → Database
  | .created _ => db.takeId
  | .done | .removed _ => db

end Database

def Written.created? : Written → Option EntityId
  | .created id => some id
  | .done | .removed _ => none

/-- An edit to a consistent snapshot, which does not go without changes. -/
def Snapshot.EditsTo (s : Snapshot) (fresh : Option EntityId) (edit : Edit) : Prop :=
  s.Leads edit.1 edit.2 fresh ∧ edit.2 ≠ []

namespace Write

/-- The actor on whose behalf a write is made, with the entity it is made on. -/
def actor? : Write → Option (Principal × EntityId)
  | grantAs actor _ entity _ | revokeAs actor _ entity _ => some (actor, entity)
  | _ => none

/-- What a write settles on by a snapshot alone, given the settings and the next identifier. -/
def plan (settings : Settings) (fresh : EntityId) (s : Snapshot) : Write → Plan
  | createNode typeName => .ok (some (s.insertNode fresh typeName, [.entity fresh]))
  | createRelationship typeName source target => s.planLink fresh typeName source target
  | addMember group member => s.planLink fresh settings.membershipName group member
  | deleteEntity id => s.planDelete id
  | setOwner id none => s.planUpdate id ({ · with owner := none })
  | setOwner id (some owner) => do
    let _ ← s.requirePrincipal owner
    s.planUpdate id ({ · with owner := some owner })
  | setVisibility id visibility => s.planUpdate id ({ · with visibility })
  | setAdmin id isAdmin => do
    let _ ← s.requirePrincipal id
    s.planUpdate id ({ · with isAdmin })
  | grant principal entity kinds | grantAs _ principal entity kinds =>
    s.planGrants principal entity (!·.contains kinds) (·.grant principal entity kinds)
  | revoke principal entity kinds | revokeAs _ principal entity kinds =>
    s.planGrants principal entity (·.intersects kinds) (·.revoke principal entity kinds)
  | declareRule name rule => .ok (s.planRules (s.rules.declare name rule))
  | declareRuleBetween type rule => .ok (s.planRules (s.rules.declareBetween type rule))
  | removeRule name =>
    .ok (if (s.rules.remove name).1 then s.planRules (s.rules.remove name).2 else none)
  | loadRules document =>
    (((RuleBook.extend document).outcome s.rules).mapError .schema).map (s.planRules ·.2)

/-- What a write gives back if it is not refused. -/
def written (fresh : EntityId) (s : Snapshot) : Write → Written
  | createNode .. | createRelationship .. | addMember .. => .created fresh
  | removeRule name => .removed (s.rules.remove name).1
  | _ => .done

theorem settles_plan {s : Snapshot} {fresh : EntityId} (settings : Settings) (hs : s.Consistent)
    (hfree : s.entity? fresh = none) (w : Write) :
    (w.plan settings fresh s).Settles (s.EditsTo (w.written fresh s).created?) := by
  have hupdate : ∀ {id : EntityId} {f : Entity → Entity},
      (∀ e, (f e).typeName = e.typeName ∧ (f e).kind = e.kind) →
        (s.planUpdate id f).Settles (s.EditsTo none) :=
    fun hf => settles_update fun _ he => ⟨leads_modifyEntity hf hs he, List.cons_ne_nil _ _⟩
  have hrules : ∀ rules, s.EditsTo none ({ s with rules }, [.rules]) :=
    fun rules => ⟨leads_rules rules hs, List.cons_ne_nil _ _⟩
  cases w with
  | createNode typeName => exact settles_some ⟨leads_insertNode hs hfree, List.cons_ne_nil _ _⟩
  | createRelationship | addMember =>
    exact settles_link fun hsource htarget =>
      ⟨leads_link hs hfree hsource htarget, List.cons_ne_nil _ _⟩
  | deleteEntity id => exact settles_delete fun _ he => leads_removeEntity hs he
  | setOwner id owner =>
    cases owner with
    | none => exact hupdate fun _ => ⟨rfl, rfl⟩
    | some owner => exact settles_bind fun _ _ => hupdate fun _ => ⟨rfl, rfl⟩
  | setVisibility id visibility => exact hupdate fun _ => ⟨rfl, rfl⟩
  | setAdmin id isAdmin => exact settles_bind fun _ _ => hupdate fun _ => ⟨rfl, rfl⟩
  | grant principal entity kinds | grantAs _ principal entity kinds =>
    rw [plan]
    exact settles_grants fun hnode hentity =>
      ⟨leads_grant kinds hs hnode hentity, List.cons_ne_nil _ _⟩
  | revoke principal entity kinds | revokeAs _ principal entity kinds =>
    rw [plan]
    exact settles_grants fun hnode hentity =>
      ⟨leads_revoke kinds hs hnode hentity, List.cons_ne_nil _ _⟩
  | declareRule | declareRuleBetween => exact settles_some (hrules _)
  | removeRule name => exact settles_removeRule hrules
  | loadRules document => exact settles_loadRules hrules

/-! ## Runs of writes -/

/-- Carries a plan out in a store. -/
def State.carry (st : State) (refuse : StoreError → WriteError) (written : Written) :
    Plan → Except WriteError Written × State
  | .ok edit =>
    (.ok written, { db := st.db.after written, transaction := st.transaction.take edit })
  | .error cause => (.error (refuse cause), st)

variable {st : State} {inner : Action Transaction StoreError Unit} {plan : Plan}

theorem on_plain (st : State) (h : inner.on st.transaction = st.transaction.carry plan) :
    (plain inner).on st = st.carry .refused .done plan := by
  cases plan <;>
    simp [plain, within, h, State.carry, Database.after, Except.mapError, Except.map]

theorem on_insertNode (st : State) (name : String) :
    (creating (insertNode name)).on st = st.carry .refused (.created st.db.freshId)
      (.ok (some (st.transaction.current.insertNode st.db.freshId name,
        [.entity st.db.freshId]))) := by
  simp [creating, insertNode, takeId, within, Transaction.working, Transaction.record,
    Action.on_bind, State.carry, Database.after, Transaction.take, Transaction.write,
    Except.mapError, Except.map]

/-- The endpoints that were found before an identifier is taken are found again after, so no
identifier is lost. -/
theorem on_insertRelationship (st : State) (name : String) (source target : EntityId) :
    (creating (insertRelationship name source target)).on st =
      st.carry .refused (.created st.db.freshId)
        (st.transaction.current.planLink st.db.freshId name source target) := by
  cases hsource : st.transaction.current.requireNode source with
  | error cause =>
    simp [creating, insertRelationship, planLink, Action.on_bind, hsource, State.carry,
      Except.mapError, Except.map]
  | ok e =>
    cases htarget : st.transaction.current.requireNode target with
    | error cause =>
      simp [creating, insertRelationship, planLink, Action.on_bind, hsource, htarget, State.carry,
        Except.mapError, Except.map]
    | ok e' =>
      have hon := Snapshot.on_insertRelationship st.db.freshId name
        (exists_requireNode_iff.mp ⟨e, hsource⟩) (exists_requireNode_iff.mp ⟨e', htarget⟩)
      simp [creating, insertRelationship, planLink, takeId, within, Transaction.working,
        Transaction.record, Action.on_bind, hsource, htarget, hon, State.carry, Database.after,
        Transaction.take, Transaction.write, Except.mapError, Except.map]

theorem on_insertMember (st : State) (group member : EntityId) :
    (creating (insertMember group member)).on st =
      st.carry .refused (.created st.db.freshId)
        (st.transaction.current.planLink st.db.freshId st.db.settings.membershipName group
          member) := by
  rw [← on_insertRelationship]
  simp [creating, insertMember, Action.on_bind]

theorem on_removeRule (st : State) (name : String) :
    run st (removeRule name) =
      st.carry .refused (.removed (st.transaction.current.rules.remove name).1)
        (.ok (if (st.transaction.current.rules.remove name).1 then
          st.transaction.current.planRules (st.transaction.current.rules.remove name).2
        else none)) := by
  simp [run, act, within, Transaction.on_removeRule, State.carry, Database.after, Except.mapError,
    Except.map]

/-- A store with a transaction that has been asked whether an actor may write. -/
def State.asking (st : State) (actor : Principal) (entity : EntityId) : State :=
  { st with transaction := (st.transaction.ask st.db (·.require actor entity .accessControl)).2 }

theorem on_onBehalf (actor : Principal) (entity : EntityId)
    (h : inner.on (st.asking actor entity).transaction =
      (st.asking actor entity).transaction.carry plan) :
    (onBehalf actor entity inner).on st =
      match (st.transaction.ask st.db (·.require actor entity .accessControl)).1 with
      | .ok _ => (st.asking actor entity).carry (.access <| .lookup ·) .done plan
      | .error cause => (.error (.access cause), st.asking actor entity) := by
  have hask : (ask (·.require actor entity .accessControl)).on st =
      ((st.transaction.ask st.db (·.require actor entity .accessControl)).1,
        st.asking actor entity) := rfl
  cases hr : (st.transaction.ask st.db (·.require actor entity .accessControl)).1 with
  | error cause => simp [onBehalf, Action.on_bind, hask, hr, Except.mapError]
  | ok granted =>
    cases plan <;>
      simp [onBehalf, within, Action.on_bind, hask, hr, h, State.carry, Database.after,
        Except.mapError, Except.map]

/-- Whether a write may be made, as far as that depends on an actor. -/
def State.permitted (st : State) (w : Write) : Except (AccessError StoreError) Unit :=
  match w.actor? with
  | none => .ok ()
  | some (actor, entity) =>
    (st.transaction.ask st.db (·.require actor entity .accessControl)).1

/-- What a write starts from once it has asked what it has to ask. -/
def State.asked (st : State) (w : Write) : State :=
  match w.actor? with
  | none => st
  | some (actor, entity) => st.asking actor entity

/-- How it is reported that the store refuses a write. -/
def refuse (w : Write) (cause : StoreError) : WriteError :=
  match w.actor? with
  | none => .refused cause
  | some _ => .access (.lookup cause)

/-- A write comes to its plan, unless it asks first and is not permitted. -/
theorem run_eq (st : State) (hs : st.transaction.current.Consistent) (w : Write) :
    w.run st =
      match st.permitted w with
      | .ok _ =>
        (st.asked w).carry w.refuse (w.written st.db.freshId st.transaction.current)
          (w.plan st.db.settings st.db.freshId st.transaction.current)
      | .error cause => (.error (.access cause), st.asked w) := by
  cases w with
  | createNode typeName => exact on_insertNode st typeName
  | createRelationship typeName source target =>
    exact on_insertRelationship st typeName source target
  | addMember group member => exact on_insertMember st group member
  | deleteEntity id => exact on_plain st (Transaction.on_deleteEntity hs id)
  | setOwner id owner =>
    cases owner with
    | none => exact on_plain st (Transaction.on_update _ id _)
    | some owner =>
      exact on_plain st (Transaction.on_guard (·.requirePrincipal owner)
        (Transaction.on_update _ id _))
  | setVisibility id visibility => exact on_plain st (Transaction.on_update _ id _)
  | setAdmin id isAdmin =>
    exact on_plain st (Transaction.on_guard (·.requirePrincipal id) (Transaction.on_update _ id _))
  | grant principal entity kinds | revoke principal entity kinds =>
    exact on_plain st (Transaction.on_writeGrants _ principal entity _ _)
  | grantAs actor principal entity kinds | revokeAs actor principal entity kinds =>
    exact on_onBehalf actor entity (Transaction.on_writeGrants _ principal entity _ _)
  | declareRule name rule => exact on_plain st rfl
  | declareRuleBetween type rule => exact on_plain st rfl
  | removeRule name => exact on_removeRule st name
  | loadRules document => exact on_plain st (Transaction.on_loadRules _ document)

/-! ### Ways to run -/

theorem asked_cases (st : State) (w : Write) :
    st.asked w = st ∨ ∃ actor entity, st.asked w = st.asking actor entity := by
  rw [State.asked]
  split
  · exact .inl rfl
  · exact .inr ⟨_, _, rfl⟩

@[simp] theorem db_asked (st : State) (w : Write) : (st.asked w).db = st.db := by
  rcases asked_cases st w with h | ⟨actor, entity, h⟩ <;> rw [h]
  rfl

@[simp] theorem base_asked (st : State) (w : Write) :
    (st.asked w).transaction.base = st.transaction.base := by
  rcases asked_cases st w with h | ⟨actor, entity, h⟩ <;> rw [h]
  rfl

@[simp] theorem current_asked (st : State) (w : Write) :
    (st.asked w).transaction.current = st.transaction.current := by
  rcases asked_cases st w with h | ⟨actor, entity, h⟩ <;> rw [h]
  rfl

/-- The two ways in which a write can have run: it is refused and has done nothing but ask, or its
plan is carried out. -/
inductive Ran (st : State) (w : Write) : Except WriteError Written × State → Prop where
  | refused (cause : WriteError) : Ran st w (.error cause, st.asked w)
  | done {edit : Option Edit}
      (h : w.plan st.db.settings st.db.freshId st.transaction.current = .ok edit) :
      Ran st w (.ok (w.written st.db.freshId st.transaction.current),
        { db := st.db.after (w.written st.db.freshId st.transaction.current)
          transaction := (st.asked w).transaction.take edit })

theorem ran_run (st : State) (hs : st.transaction.current.Consistent) (w : Write) :
    Ran st w (w.run st) := by
  rw [run_eq st hs]
  cases st.permitted w with
  | error cause => exact .refused (.access cause)
  | ok _ =>
    cases hplan : w.plan st.db.settings st.db.freshId st.transaction.current with
    | error cause => exact .refused (w.refuse cause)
    | ok edit =>
      simp only [State.carry, db_asked]
      exact .done hplan

theorem base_ran {w : Write} {outcome : Except WriteError Written × State}
    (hr : Ran st w outcome) : outcome.2.transaction.base = st.transaction.base := by
  cases hr with
  | refused => exact base_asked st w
  | done =>
    rw [Transaction.base_take]
    exact base_asked st w

end Write
end PermissionGraph
