/-!
# PermissionGraph.Action

Computations on a state that may fail. What was altered before a failure stays altered, so whether a
failure leaves the state as it was depends on the order of the steps and is shown of each action.

* `Action.on`, `on_bind`: what an action gives and leaves behind.
* `Action.outcome`, `outcome_bind`: the same where a failure leaves nothing of interest.
* `Action.focus`: an action on a part of a state.
-/

namespace PermissionGraph

variable {σ τ ε ε' α β : Type}

/-- A computation on a state that may fail. A failure keeps the state that it came from. -/
abbrev Action (σ ε : Type) := ExceptT ε (StateM σ)

@[simp] theorem ok_bind (a : α) (f : α → Except ε β) : (.ok a >>= f) = f a := rfl

@[simp] theorem error_bind (cause : ε) (f : α → Except ε β) :
    (.error cause >>= f) = .error cause := rfl

namespace Action

/-- Runs an action on a state. -/
def on (act : Action σ ε α) (s : σ) : Except ε α × σ := act s

/-- What an action comes to if only success counts: a failure comes to its cause. -/
def outcome (act : Action σ ε α) (s : σ) : Except ε (α × σ) :=
  match act.on s with
  | (.ok a, s) => .ok (a, s)
  | (.error cause, _) => .error cause

/-- Acts on a part of a state. -/
def focus (part : σ → τ) (put : τ → σ → σ) (act : Action τ ε α) : Action σ ε α := fun s =>
  let (result, t) := act.on (part s)
  (result, put t s)

/-- Gives the causes of failure another form. -/
def mapError (f : ε → ε') (act : Action σ ε α) : Action σ ε' α := ExceptT.adapt f act

@[simp] theorem on_pure (a : α) (s : σ) : (pure a : Action σ ε α).on s = (.ok a, s) := rfl

@[simp] theorem on_throw (cause : ε) (s : σ) :
    (throw cause : Action σ ε α).on s = (.error cause, s) := rfl

@[simp] theorem on_get (s : σ) : (get : Action σ ε σ).on s = (.ok s, s) := rfl

@[simp] theorem on_set (s t : σ) : (set t : Action σ ε PUnit).on s = (.ok ⟨⟩, t) := rfl

@[simp] theorem on_modify (f : σ → σ) (s : σ) :
    (modify f : Action σ ε PUnit).on s = (.ok ⟨⟩, f s) := rfl

@[simp] theorem on_modifyGet (f : σ → α × σ) (s : σ) :
    (modifyGet f : Action σ ε α).on s = (.ok (f s).1, (f s).2) := rfl

/-- What does not look at the state leaves it alone. -/
@[simp] theorem on_lift (r : Except ε α) (s : σ) : (liftM r : Action σ ε α).on s = (r, s) := rfl

@[simp] theorem on_focus (part : σ → τ) (put : τ → σ → σ) (act : Action τ ε α) (s : σ) :
    (focus part put act).on s = ((act.on (part s)).1, put (act.on (part s)).2 s) := rfl

@[simp] theorem on_mapError (f : ε → ε') (act : Action σ ε α) (s : σ) :
    (act.mapError f).on s = ((act.on s).1.mapError f, (act.on s).2) := rfl

/-- A second action is not run if the first fails. -/
theorem on_bind (act : Action σ ε α) (f : α → Action σ ε β) (s : σ) :
    (act >>= f).on s =
      match act.on s with
      | (.ok a, s) => (f a).on s
      | (.error cause, s) => (.error cause, s) := by
  have h : (act >>= f).on s =
      (ExceptT.bindCont f (act.on s).1 : StateM σ (Except ε β)) (act.on s).2 := rfl
  rw [h]
  rcases act.on s with ⟨r, s⟩
  cases r <;> rfl

@[simp] theorem on_map (f : α → β) (act : Action σ ε α) (s : σ) :
    (f <$> act).on s = ((act.on s).1.map f, (act.on s).2) := by
  rw [← bind_pure_comp, on_bind]
  rcases act.on s with ⟨_ | a, s'⟩ <;> rfl

theorem on_bind_of_ok {act : Action σ ε α} {f : α → Action σ ε β} {s s' : σ} {a : α}
    (h : act.on s = (.ok a, s')) : (act >>= f).on s = (f a).on s' := by
  rw [on_bind, h]

/-! ## Outcomes -/

theorem outcome_eq_ok_iff {act : Action σ ε α} {s : σ} {r : α × σ} :
    act.outcome s = .ok r ↔ act.on s = (.ok r.1, r.2) := by
  rw [outcome]
  rcases act.on s with ⟨_ | a, s'⟩
  · simp
  · simp [Prod.ext_iff]

theorem outcome_eq_error_iff {act : Action σ ε α} {s : σ} {cause : ε} :
    act.outcome s = .error cause ↔ (act.on s).1 = .error cause := by
  rw [outcome]
  rcases act.on s with ⟨_ | a, s'⟩ <;> simp

theorem outcome_bind (act : Action σ ε α) (f : α → Action σ ε β) (s : σ) :
    (act >>= f).outcome s = act.outcome s >>= fun r => (f r.1).outcome r.2 := by
  rw [outcome, outcome, on_bind]
  rcases act.on s with ⟨_ | a, s'⟩
  · rfl
  · rfl

end Action
end PermissionGraph
