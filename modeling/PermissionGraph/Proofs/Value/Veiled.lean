import PermissionGraph.Proofs.Value.Filter

/-!
# PermissionGraph.Proofs.Value.Veiled

What can not be read does not influence what the filter gives. Two values that differ only in
entities and paths that stop the principal alike (`Access.HiddenAlike`) are filtered to the same
result, and in either order over one memo (`filter_veiled`).

That two entities or paths exist and can not be read is not enough where a look-up can fail further
on: a path that can not be read may fail before the filter comes to what makes it unreadable
(`filter_ne_annotated`). It is enough in a graph without dangling relationships whose look-ups
succeed (`filter_veiled_of_closed`).
-/

namespace PermissionGraph

variable {ε α β : Type}

namespace Value

mutual

/-- Two values have one shape and differ only in entities and paths, which `R` relates by what
occurs in them. -/
inductive Veiled (R : List EntityId → List EntityId → Prop) : Value → Value → Prop
  | same (value : Value) : Veiled R value value
  | entity {id other : EntityId} (h : R [id] [other]) : Veiled R (.entity id) (.entity other)
  | path {p q : Path} (h : R p.elements q.elements) : Veiled R (.path p) (.path q)
  | list {items others : List Value} (h : VeiledItems R items others) :
      Veiled R (.list items) (.list others)
  | map {entries others : List (String × Value)} (h : VeiledEntries R entries others) :
      Veiled R (.map entries) (.map others)

inductive VeiledItems (R : List EntityId → List EntityId → Prop) : List Value → List Value → Prop
  | nil : VeiledItems R [] []
  | cons {item other : Value} {rest others : List Value} (h : Veiled R item other)
      (hrest : VeiledItems R rest others) : VeiledItems R (item :: rest) (other :: others)

/-- Maps are compared under the same keys. -/
inductive VeiledEntries (R : List EntityId → List EntityId → Prop) :
    List (String × Value) → List (String × Value) → Prop
  | nil : VeiledEntries R [] []
  | cons {key : String} {value other : Value} {rest others : List (String × Value)}
      (h : Veiled R value other) (hrest : VeiledEntries R rest others) :
      VeiledEntries R ((key, value) :: rest) ((key, other) :: others)

end

variable {R S : List EntityId → List EntityId → Prop} {value other : Value}

theorem Veiled.isEntity_eq (h : Veiled R value other) : value.isEntity = other.isEntity := by
  cases h <;> rfl

mutual

theorem Veiled.mono (hRS : ∀ ids others, R ids others → S ids others) {value other : Value}
    (h : Veiled R value other) : Veiled S value other := by
  cases h with
  | same => exact .same value
  | entity h => exact .entity (hRS _ _ h)
  | path h => exact .path (hRS _ _ h)
  | list h => exact .list (h.mono hRS)
  | map h => exact .map (h.mono hRS)

theorem VeiledItems.mono (hRS : ∀ ids others, R ids others → S ids others)
    {items others : List Value} (h : VeiledItems R items others) : VeiledItems S items others := by
  cases h with
  | nil => exact .nil
  | cons h hrest => exact .cons (h.mono hRS) (hrest.mono hRS)

theorem VeiledEntries.mono (hRS : ∀ ids others, R ids others → S ids others)
    {entries others : List (String × Value)} (h : VeiledEntries R entries others) :
    VeiledEntries S entries others := by
  cases h with
  | nil => exact .nil
  | cons h hrest => exact .cons (h.mono hRS) (hrest.mono hRS)

end

end Value

namespace Query

variable {m : LocalMemo}

/-- The results of two questions in turn, the second over the memo that the first left. -/
def inOrder (q : Query ε α) (r : Query ε β) (memo : LocalMemo) :
    Except (AccessError ε) α × Except (AccessError ε) β :=
  ((q.ask memo).1, (r.ask (q.ask memo).2).1)

theorem ask_bind_of_ok {q : Query ε α} {f : α → Query ε β} {x : α} (h : (q.ask m).1 = .ok x) :
    (q >>= f).ask m = (f x).ask (q.ask m).2 := by
  rw [ask_bind]
  cases hq : q.ask m with
  | mk r n =>
    rw [hq] at h
    cases h
    rfl

theorem ask_ite_of_ne {q : Query ε Bool} {r : Except (AccessError ε) Bool} {yes : Query ε α}
    {no : α} (h : (q.ask m).1 = r) (hr : r ≠ .ok true) :
    ((q >>= fun b => if b then yes else pure no).ask m).1 = r.map fun _ => no := by
  rw [ask_bind]
  cases hq : q.ask m with
  | mk found n =>
    have hfound : found = r := by rw [hq] at h; exact h
    subst hfound
    cases found with
    | error cause => rfl
    | ok b =>
      cases b with
      | false => rfl
      | true => exact absurd rfl hr

end Query

namespace Access

open Query

variable {a : Access ε} {memo : LocalMemo} {principal : Principal} {ids others : List EntityId}
  {r : Except (AccessError ε) Bool} {value other : Value}

/-! ## Where a principal is stopped -/

/-- Of some entities, looked at in turn, the first that the principal is not told it can read says
`r`: that it can not, or why that can not be found out. -/
inductive Stops (a : Access ε) (principal : Principal) :
    List EntityId → Except (AccessError ε) Bool → Prop
  | here {id : EntityId} {rest : List EntityId} {r : Except (AccessError ε) Bool}
      (h : a.sees principal id = r) (hr : r ≠ .ok true) : Stops a principal (id :: rest) r
  | later {id : EntityId} {rest : List EntityId} {r : Except (AccessError ε) Bool}
      (h : a.sees principal id = .ok true) (hrest : Stops a principal rest r) :
      Stops a principal (id :: rest) r

/-- Two lists of entities stop a principal in the same way. -/
def HiddenAlike (a : Access ε) (principal : Principal) (ids others : List EntityId) : Prop :=
  ∃ r, a.Stops principal ids r ∧ a.Stops principal others r

theorem Stops.ne (h : a.Stops principal ids r) : r ≠ .ok true := by
  induction h with
  | here _ hr => exact hr
  | later _ _ ih => exact ih

theorem Coherent.ask_allVisible_of_stops (h : a.Coherent memo) (hs : a.Stops principal ids r) :
    ((a.allVisible principal ids).ask memo).1 = r := by
  induction hs generalizing memo with
  | @here id rest r hsees hr =>
    have hfirst := (h.ask_isVisible principal id).trans hsees
    rw [allVisible, ask_ite_of_ne hfirst hr]
    cases r with
    | error cause => rfl
    | ok b =>
      cases b with
      | false => rfl
      | true => exact absurd rfl hr
  | @later id rest r hsees _ ih =>
    have hfirst := (h.ask_isVisible principal id).trans hsees
    rw [allVisible, ask_bind_of_ok hfirst]
    exact ih (h.isVisible principal id)

/-- The filter says of an entity that stops a principal that nothing is left, or why that is not
known. -/
theorem Coherent.ask_filter_entity (h : a.Coherent memo) {id : EntityId}
    (hs : a.Stops principal [id] r) :
    ((a.filter principal (.entity id)).ask memo).1 = r.map fun _ => none := by
  have hsees : a.sees principal id = r := by
    cases hs with
    | here h _ => exact h
    | later _ hrest => cases hrest
  rw [Access.filter]
  exact ask_ite_of_ne ((h.ask_isVisible principal id).trans hsees) hs.ne

theorem Coherent.ask_filter_path (h : a.Coherent memo) {p : Path}
    (hs : a.Stops principal p.elements r) :
    ((a.filter principal (.path p)).ask memo).1 = r.map fun _ => none := by
  rw [Access.filter]
  exact ask_ite_of_ne (h.ask_allVisible_of_stops hs) hs.ne

/-! ## Two values -/

mutual

/-- Over coherent memos, values that differ only in what stops the principal alike are filtered to
the same result. -/
theorem alike_filter_of_veiled {value other : Value}
    (h : Value.Veiled (a.HiddenAlike principal) value other) :
    Alike a.Coherent a.Coherent (a.filter principal value) (a.filter principal other) := by
  cases h with
  | same => exact alike_filter coherentAlike principal value
  | entity h =>
    obtain ⟨r, hs, hs'⟩ := h
    intro m m' hm hm'
    refine ⟨?_, hm.filter principal _, hm'.filter principal _⟩
    rw [hm.ask_filter_entity hs, hm'.ask_filter_entity hs']
  | path h =>
    obtain ⟨r, hs, hs'⟩ := h
    intro m m' hm hm'
    refine ⟨?_, hm.filter principal _, hm'.filter principal _⟩
    rw [hm.ask_filter_path hs, hm'.ask_filter_path hs']
  | list h =>
    rw [filter, filter]
    exact (alike_filterItems_of_veiled h).bind fun _ => .pure _
  | map h =>
    rw [filter, filter]
    exact (alike_filterEntries_of_veiled h).bind fun _ => .pure _

theorem alike_filterItems_of_veiled {items others : List Value}
    (h : Value.VeiledItems (a.HiddenAlike principal) items others) :
    Alike a.Coherent a.Coherent (a.filterItems principal items)
      (a.filterItems principal others) := by
  cases h with
  | nil =>
    rw [filterItems]
    exact .pure _
  | cons h hrest =>
    rw [filterItems, filterItems]
    exact (alike_filter_of_veiled h).bind fun _ =>
      (alike_filterItems_of_veiled hrest).bind fun _ => .pure _

theorem alike_filterEntries_of_veiled {entries others : List (String × Value)}
    (h : Value.VeiledEntries (a.HiddenAlike principal) entries others) :
    Alike a.Coherent a.Coherent (a.filterEntries principal entries)
      (a.filterEntries principal others) := by
  cases h with
  | nil =>
    rw [filterEntries]
    exact .pure _
  | @cons key value other _ _ h hrest =>
    -- what a dropped value leaves in a map hangs on whether it was an entity
    have hleft : leftover key value = leftover key other := by
      funext reduced
      cases reduced with
      | some _ => rfl
      | none => rw [leftover, leftover, h.isEntity_eq]
    rw [filterEntries, filterEntries, hleft]
    exact (alike_filter_of_veiled h).bind fun _ =>
      (alike_filterEntries_of_veiled hrest).bind fun _ => .pure _

end

theorem inOrder_filter (h : Alike a.Coherent a.Coherent (a.filter principal value)
    (a.filter principal other)) (hm : a.Coherent memo) : ∃ result,
      inOrder (a.filter principal value) (a.filter principal other) memo = (result, result) ∧
      inOrder (a.filter principal other) (a.filter principal value) memo = (result, result) := by
  have hsame : Alike a.Coherent a.Coherent (a.filter principal other) (a.filter principal other) :=
    alike_filter coherentAlike principal other
  refine ⟨((a.filter principal other).ask memo).1, ?_, ?_⟩
  · rw [inOrder, (h _ _ hm hm).1, (hsame _ _ (hm.filter principal value) hm).1]
  · rw [inOrder, (h _ _ (hm.filter principal other) hm).1]

/-- What can not be read does not influence what the filter gives: values that differ only in
entities and paths that stop the principal alike are filtered to one result, whichever comes first
over a memo that any questions have left. -/
theorem filter_veiled (h : Value.Veiled (a.HiddenAlike principal) value other)
    (questions : List Question) : ∃ result,
      inOrder (a.filter principal value) (a.filter principal other) (a.memoAfter questions ∅) =
        (result, result) ∧
      inOrder (a.filter principal other) (a.filter principal value) (a.memoAfter questions ∅) =
        (result, result) :=
  inOrder_filter (alike_filter_of_veiled h) (complete_empty.memoAfter questions).coherent

/-- Drafts beside a page, of which a user can read neither the drafts nor what links them. -/
def deskTables : Tables where
  entities := .ofList ([
    (⟨1⟩, .node "User"), (⟨10⟩, .node "Page"), (⟨11⟩, .node "Draft"), (⟨12⟩, .node "Draft"),
    (⟨20⟩, .relationship "Link" ⟨10⟩ ⟨11⟩), (⟨21⟩, .relationship "Link" ⟨10⟩ ⟨12⟩)] :
    List (EntityId × Entity))
  grants := ((∅ : Grants).grant ⟨1⟩ ⟨10⟩ (.single .read)).2

def desk : Access Unavailable := { view := deskTables.view, settings := {} }

theorem filter_veiled_desk :
    let value : Value := .map [("draft", .entity ⟨11⟩),
      ("all", .list [.entity ⟨10⟩, .entity ⟨12⟩, .path ⟨[⟨10⟩, ⟨20⟩, ⟨11⟩]⟩])]
    let other : Value := .map [("draft", .entity ⟨21⟩),
      ("all", .list [.entity ⟨10⟩, .entity ⟨11⟩, .path ⟨[⟨12⟩]⟩])]
    Value.Veiled (desk.HiddenAlike (.user ⟨1⟩)) value other ∧ ∃ result,
      inOrder (desk.filter (.user ⟨1⟩) value) (desk.filter (.user ⟨1⟩) other)
        (desk.memoAfter [.isVisible .anonymous ⟨10⟩] ∅) = (result, result) ∧
      inOrder (desk.filter (.user ⟨1⟩) other) (desk.filter (.user ⟨1⟩) value)
        (desk.memoAfter [.isVisible .anonymous ⟨10⟩] ∅) = (result, result) := by
  intro value other
  have hread : desk.sees (.user ⟨1⟩) ⟨10⟩ = .ok true := by decide +kernel
  have hhidden : ∀ id ∈ [⟨11⟩, ⟨12⟩, ⟨20⟩, ⟨21⟩], desk.sees (.user ⟨1⟩) id = .ok false := by
    decide +kernel
  have hstops : ∀ id ∈ [⟨11⟩, ⟨12⟩, ⟨20⟩, ⟨21⟩], ∀ rest,
      desk.Stops (.user ⟨1⟩) (id :: rest) (.ok false) :=
    fun id hid rest => .here (hhidden id hid) (by simp)
  have hveiled : Value.Veiled (desk.HiddenAlike (.user ⟨1⟩)) value other :=
    .map <| .cons (.entity ⟨_, hstops _ (by simp) _, hstops _ (by simp) _⟩) <|
      .cons (.list <| .cons (.same _) <|
        .cons (.entity ⟨_, hstops _ (by simp) _, hstops _ (by simp) _⟩) <|
        .cons (.path ⟨_, .later hread (hstops _ (by simp) _), hstops _ (by simp) _⟩) .nil) .nil
  exact ⟨hveiled, filter_veiled hveiled _⟩

/-! ## Graphs without dangling relationships -/

/-- Both lists hold entities that exist, among them one that the principal can not read. -/
structure HiddenBoth (a : Access ε) (principal : Principal) (ids others : List EntityId) :
    Prop where
  exist : ∀ id ∈ ids ++ others, ∃ e, a.view.entity? id = .ok (some e)
  hidden : ∃ id ∈ ids, a.sees principal id = .ok false
  hidden' : ∃ id ∈ others, a.sees principal id = .ok false

theorem exists_sees (havailable : a.view.Available) (hclosed : a.view.Closed) {id hinted : EntityId}
    {b : Bool} {e : Entity} (hhinted : a.sees principal hinted = .ok b)
    (he : a.view.entity? id = .ok (some e)) : ∃ b, a.sees principal id = .ok b := by
  rw [sees, answer_eq] at hhinted
  cases hsuper : a.isSuperuser principal with
  | error cause =>
    rw [hsuper] at hhinted
    cases hhinted
  | ok exempt =>
    cases exempt with
    | true =>
      have hentity : a.entity id = .ok e := by rw [entity, he]
      rw [sees, answer_eq, hsuper, hentity]
      exact ⟨_, rfl⟩
    | false =>
      have hcomplete : (a.derivations principal).IsComplete id :=
        isComplete_of_exists havailable fun _ hr => exists_of_reaches hclosed ⟨e, he⟩ hr
      obtain ⟨entry, hentry⟩ := Derivations.exists_entries hcomplete
      rw [sees_eq, answer_of_entries hsuper trusts_empty hentry]
      exact ⟨_, rfl⟩

theorem stops_of_exists_sees (hall : ∀ id ∈ ids, ∃ b, a.sees principal id = .ok b)
    (hhidden : ∃ id ∈ ids, a.sees principal id = .ok false) :
    a.Stops principal ids (.ok false) := by
  induction ids with
  | nil => simp at hhidden
  | cons id ids ih =>
    obtain ⟨⟨b, hb⟩, hall⟩ := List.forall_mem_cons.mp hall
    cases b with
    | false => exact .here hb (by simp)
    | true =>
      obtain ⟨x, hx, hsees⟩ := hhidden
      rcases List.mem_cons.mp hx with rfl | hx
      · rw [hb] at hsees
        cases hsees
      · exact .later hb (ih hall ⟨x, hx, hsees⟩)

theorem HiddenBoth.hiddenAlike (havailable : a.view.Available) (hclosed : a.view.Closed)
    (h : a.HiddenBoth principal ids others) : a.HiddenAlike principal ids others := by
  obtain ⟨hinted, _, hhinted⟩ := h.hidden
  have hall : ∀ id ∈ ids ++ others, ∃ b, a.sees principal id = .ok b := by
    intro id hid
    obtain ⟨e, he⟩ := h.exist id hid
    exact exists_sees havailable hclosed hhinted he
  rw [List.forall_mem_append] at hall
  exact ⟨_, stops_of_exists_sees hall.1 h.hidden, stops_of_exists_sees hall.2 h.hidden'⟩

/-- In a graph without dangling relationships whose look-ups succeed, it is enough that what two
values differ in exists and can not be read. -/
theorem filter_veiled_of_closed (havailable : a.view.Available) (hclosed : a.view.Closed)
    (h : Value.Veiled (a.HiddenBoth principal) value other) (questions : List Question) :
    ∃ result,
      inOrder (a.filter principal value) (a.filter principal other) (a.memoAfter questions ∅) =
        (result, result) ∧
      inOrder (a.filter principal other) (a.filter principal value) (a.memoAfter questions ∅) =
        (result, result) :=
  inOrder_filter
    (alike_filter_of_veiled (h.mono fun _ _ => HiddenBoth.hiddenAlike havailable hclosed))
    (complete_empty.memoAfter questions).coherent

/-- A page that can be read, and a link from it that is annotated by a note whose other end is
missing. -/
def annotatedTables : Tables where
  entities := .ofList ([
    (⟨1⟩, .node "User"), (⟨10⟩, .node "Page"), (⟨11⟩, .node "Page"),
    (⟨20⟩, .relationship "Link" ⟨11⟩ ⟨10⟩), (⟨21⟩, .relationship "Note" ⟨20⟩ ⟨99⟩)] :
    List (EntityId × Entity))
  grants := ((∅ : Grants).grant ⟨1⟩ ⟨11⟩ (.single .read)).2
  rules := (∅ : RuleBook).declare "Note" ⟨.inward, { read := .add }⟩

def annotated : Access Unavailable := { view := annotatedTables.view, settings := {} }

/-- Otherwise it is not: of two paths over entities that exist, to the same page that can not be
read, one is dropped and the other fails, because its link comes first and draws on what is
missing. -/
theorem filter_ne_annotated :
    Value.Veiled (annotated.HiddenBoth (.user ⟨1⟩)) (.path ⟨[⟨10⟩]⟩)
      (.path ⟨[⟨11⟩, ⟨20⟩, ⟨10⟩]⟩) ∧
    ((annotated.filter (.user ⟨1⟩) (.path ⟨[⟨10⟩]⟩)).ask ∅).1.map Option.isNone = .ok true ∧
    ((annotated.filter (.user ⟨1⟩) (.path ⟨[⟨11⟩, ⟨20⟩, ⟨10⟩]⟩)).ask ∅).1.map Option.isNone =
      .error (.entityNotFound ⟨99⟩) := by
  have hfound : ∀ id ∈ [⟨10⟩] ++ [⟨11⟩, ⟨20⟩, ⟨10⟩],
      (annotated.view.entity? id).map Option.isSome = .ok true := by
    decide +kernel
  have hhidden : annotated.sees (.user ⟨1⟩) ⟨10⟩ = .ok false := by decide +kernel
  refine ⟨.path ⟨fun id hid => ?_, ⟨⟨10⟩, by simp, hhidden⟩, ⟨⟨10⟩, by simp, hhidden⟩⟩,
    by decide +kernel, by decide +kernel⟩
  obtain ⟨found, hentity, hsome⟩ := exists_of_map_eq_ok (hfound id hid)
  obtain ⟨e, rfl⟩ := Option.isSome_iff_exists.mp hsome
  exact ⟨e, hentity⟩

end Access
end PermissionGraph
