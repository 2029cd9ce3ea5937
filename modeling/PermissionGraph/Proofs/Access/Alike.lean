import PermissionGraph.Store.Session

/-!
# PermissionGraph.Proofs.Access.Alike

Questions that are answered alike. Two questions, put to two memos, are alike (`Query.Alike`) when
they have one answer and keep what the memos are. All questions come down to that for permissions,
so what is shown of it holds of every other (`alike_run`).
-/

namespace PermissionGraph

variable {ε α β : Type}

/-! ## Questions made of questions -/

namespace Query

variable {P P' : LocalMemo → Prop} {q q' : Query ε α} {f f' : α → Query ε β}

theorem ask_bind (q : Query ε α) (f : α → Query ε β) (m : LocalMemo) :
    (q >>= f).ask m =
      match q.ask m with
      | (.ok a, m) => (f a).ask m
      | (.error cause, m) => (.error cause, m) := by
  have h : (q >>= f).ask m = (ExceptT.bindCont f (q.ask m).1 : StateM LocalMemo _) (q.ask m).2 :=
    rfl
  rw [h]
  cases q.ask m with
  | mk r m => cases r <;> rfl

/-- Put to two memos, two questions have one answer, and keep what the memos are. -/
def Alike (P P' : LocalMemo → Prop) (q q' : Query ε α) : Prop :=
  ∀ m m', P m → P' m' → (q.ask m).1 = (q'.ask m').1 ∧ P (q.ask m).2 ∧ P' (q'.ask m').2

theorem Alike.pure (a : α) : Alike P P' (pure a : Query ε α) (Pure.pure a) :=
  fun _ _ h h' => ⟨rfl, h, h'⟩

theorem Alike.throw (cause : AccessError ε) :
    Alike P P' (throw cause : Query ε α) (throw cause) :=
  fun _ _ h h' => ⟨rfl, h, h'⟩

theorem Alike.bind (hq : Alike P P' q q') (hf : ∀ a, Alike P P' (f a) (f' a)) :
    Alike P P' (q >>= f) (q' >>= f') := by
  intro m m' h h'
  obtain ⟨hr, hm, hm'⟩ := hq m m' h h'
  rw [ask_bind, ask_bind]
  cases hq : q.ask m with
  | mk r n =>
    cases hq' : q'.ask m' with
    | mk r' n' =>
      rw [hq] at hr hm
      rw [hq'] at hr hm'
      have hr : r = r' := hr
      subst hr
      cases r with
      | error cause => exact ⟨rfl, hm, hm'⟩
      | ok a => exact hf a n n' hm hm'

theorem Alike.ite {b : Bool} (hq : Alike P P' q q') {r r' : Query ε α} (hr : Alike P P' r r') :
    Alike P P' (if b then q else r) (if b then q' else r') := by
  cases b
  · exact hr
  · exact hq

end Query

namespace Access

variable {a a' : Access ε} {P P' : LocalMemo → Prop} {principal : Principal}

open Query

/-- The question for permissions is answered alike with two graphs. -/
def PermissionsAlike (a : Access ε) (P P' : LocalMemo → Prop) (a' : Access ε) : Prop :=
  ∀ principal id, Query.Alike P P' (a.permissions principal id) (a'.permissions principal id)

section Questions

variable (h : a.PermissionsAlike P P' a')
include h

theorem alike_isVisible (principal : Principal) (id : EntityId) :
    Alike P P' (a.isVisible principal id) (a'.isVisible principal id) :=
  (h principal id).bind fun _ => .pure _

theorem alike_require (principal : Principal) (id : EntityId) (kind : Permission) :
    Alike P P' (a.require principal id kind) (a'.require principal id kind) :=
  ((h principal id).bind fun _ => .pure _).bind fun _ => .ite (.pure _) (.throw _)

theorem alike_canLink (principal : Principal) (source target : EntityId) :
    Alike P P' (a.canLink principal source target) (a'.canLink principal source target) :=
  (h principal source).bind fun _ => .ite ((h principal target).bind fun _ => .pure _) (.pure _)

theorem alike_allVisible (principal : Principal) (ids : List EntityId) :
    Alike P P' (a.allVisible principal ids) (a'.allVisible principal ids) := by
  induction ids with
  | nil => exact .pure _
  | cons id ids ih => exact (alike_isVisible h principal id).bind fun _ => .ite ih (.pure _)

end Questions

mutual

theorem alike_filter (h : a.PermissionsAlike P P' a') (principal : Principal) (value : Value) :
    Alike P P' (a.filter principal value) (a'.filter principal value) := by
  cases value with
  | entity id =>
    rw [filter, filter]
    exact (alike_isVisible h principal id).bind fun _ => .ite (.pure _) (.pure _)
  | list items =>
    rw [filter, filter]
    exact (alike_filterItems h principal items).bind fun _ => .pure _
  | path p =>
    rw [filter, filter]
    exact (alike_allVisible h principal p.elements).bind fun _ => .ite (.pure _) (.pure _)
  | map entries =>
    rw [filter, filter]
    exact (alike_filterEntries h principal entries).bind fun _ => .pure _
  | scalar s =>
    rw [filter, filter]
    exact .pure _

theorem alike_filterItems (h : a.PermissionsAlike P P' a') (principal : Principal)
    (items : List Value) :
    Alike P P' (a.filterItems principal items) (a'.filterItems principal items) := by
  cases items with
  | nil =>
    rw [filterItems, filterItems]
    exact .pure _
  | cons item rest =>
    rw [filterItems, filterItems]
    exact (alike_filter h principal item).bind fun _ =>
      (alike_filterItems h principal rest).bind fun _ => .pure _

theorem alike_filterEntries (h : a.PermissionsAlike P P' a') (principal : Principal)
    (entries : List (String × Value)) :
    Alike P P' (a.filterEntries principal entries) (a'.filterEntries principal entries) := by
  match entries with
  | [] =>
    rw [filterEntries, filterEntries]
    exact .pure _
  | (key, value) :: rest =>
    rw [filterEntries, filterEntries]
    exact (alike_filter h principal value).bind fun _ =>
      (alike_filterEntries h principal rest).bind fun _ => .pure _

end

/-- What holds of the question for permissions holds of every other, because all are made of it. -/
theorem alike_run (h : a.PermissionsAlike P P' a')
    (hs : ∀ principal, a.isSuperuser principal = a'.isSuperuser principal)
    (q : Question) : Alike P P' (q.run a) (q.run a') := by
  cases q with
  | permissions principal id => exact (h principal id).bind fun _ => .pure _
  | isAllowed principal id kind =>
    exact ((h principal id).bind fun _ => .pure _).bind fun _ => .pure _
  | isVisible principal id => exact (alike_isVisible h principal id).bind fun _ => .pure _
  | require principal id kind => exact (alike_require h principal id kind).bind fun _ => .pure _
  | isSuperuser principal =>
    refine Alike.bind (fun m m' hm hm' => ?_) fun _ => .pure _
    exact ⟨hs principal, hm, hm'⟩
  | canLink principal source target =>
    exact (alike_canLink h principal source target).bind fun _ => .pure _
  | filter principal value => exact (alike_filter h principal value).bind fun _ => .pure _

end Access
end PermissionGraph
