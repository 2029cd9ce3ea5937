import PermissionGraph.Proofs.Access.Combination

/-!
# PermissionGraph.Proofs.Value.Filter

The filter does not leak. What it leaves of a value holds only entities that the principal can read
when it asks with an empty memo, whatever was asked over the memo before (`filter_eq_some`).

* `Access.sees`: whether a principal can read an entity, as an empty memo answers.
* `Value.ids`: every entity of a value, at any depth.
* `Access.Leaves`, `Access.Hides`: what is left of a value, and which values nothing is left of,
  said without the filter.
-/

namespace PermissionGraph

variable {ε α β : Type}

namespace Query

variable {q : Query ε α} {f : α → Query ε β} {m : LocalMemo} {b : β}

theorem ask_bind_eq_ok_iff : ((q >>= f).ask m).1 = .ok b ↔
    ∃ x, (q.ask m).1 = .ok x ∧ ((f x).ask (q.ask m).2).1 = .ok b := by
  rw [ask_bind]
  cases q.ask m with
  | mk r m => cases r <;> simp

end Query

namespace Value

mutual

/-- Every entity that occurs in a value, on its own or on a path, at any depth. -/
def ids : Value → List EntityId
  | entity id => [id]
  | list items => idsOfItems items
  | path p => p.elements
  | map entries => idsOfEntries entries
  | scalar _ => []

def idsOfItems : List Value → List EntityId
  | [] => []
  | item :: rest => ids item ++ idsOfItems rest

def idsOfEntries : List (String × Value) → List EntityId
  | [] => []
  | (_, value) :: rest => ids value ++ idsOfEntries rest

end

end Value

namespace Access

variable {a : Access ε} {memo : LocalMemo} {principal : Principal} {value left : Value}

/-- Whether a principal can read an entity, as an empty memo answers. -/
def sees (a : Access ε) (principal : Principal) (id : EntityId) : Except (AccessError ε) Bool :=
  (a.answer ∅ principal id).map (·.1.holds .read)

theorem sees_eq (a : Access ε) (principal : Principal) (id : EntityId) : a.sees principal id =
    ((a.answer ∅ principal id).map Prod.fst).map (·.holds .read) := by
  rw [sees]
  cases a.answer ∅ principal id <;> rfl

theorem sees_eq_ok_iff {b : Bool} {id : EntityId} : a.sees principal id = .ok b ↔
    ∃ held, (a.answer ∅ principal id).map Prod.fst = .ok held ∧ held.holds .read = b := by
  rw [sees_eq]
  constructor
  · exact exists_of_map_eq_ok
  · rintro ⟨held, hheld, rfl⟩
    rw [hheld]
    rfl

/-! ## What is left of a value -/

/-- Nothing is left of a value: it is an entity that the principal can not read, or a path over
one. -/
inductive Hides (a : Access ε) (principal : Principal) : Value → Prop
  | entity {id : EntityId} (h : a.sees principal id = .ok false) : Hides a principal (.entity id)
  | path {p : Path} {id : EntityId} (hmem : id ∈ p.elements)
      (h : a.sees principal id = .ok false) : Hides a principal (.path p)

mutual

/-- What a principal is left with of a value. Entities and paths stay if all of them can be read,
lists and maps are reduced one by one. -/
inductive Leaves (a : Access ε) (principal : Principal) : Value → Value → Prop
  | entity {id : EntityId} (h : a.sees principal id = .ok true) :
      Leaves a principal (.entity id) (.entity id)
  | list {items left : List Value} (h : LeavesItems a principal items left) :
      Leaves a principal (.list items) (.list left)
  | path {p : Path} (h : ∀ id ∈ p.elements, a.sees principal id = .ok true) :
      Leaves a principal (.path p) (.path p)
  | map {entries left : List (String × Value)} (h : LeavesEntries a principal entries left) :
      Leaves a principal (.map entries) (.map left)
  | scalar (s : Scalar) : Leaves a principal (.scalar s) (.scalar s)

/-- What is left of the items of a list, in their order. -/
inductive LeavesItems (a : Access ε) (principal : Principal) : List Value → List Value → Prop
  | nil : LeavesItems a principal [] []
  | keep {item left : Value} {rest lefts : List Value} (h : Leaves a principal item left)
      (hrest : LeavesItems a principal rest lefts) :
      LeavesItems a principal (item :: rest) (left :: lefts)
  | drop {item : Value} {rest lefts : List Value} (h : Hides a principal item)
      (hrest : LeavesItems a principal rest lefts) :
      LeavesItems a principal (item :: rest) lefts

/-- What is left of the entries of a map, under the keys that they had. -/
inductive LeavesEntries (a : Access ε) (principal : Principal) :
    List (String × Value) → List (String × Value) → Prop
  | nil : LeavesEntries a principal [] []
  | keep {key : String} {value left : Value} {rest lefts : List (String × Value)}
      (h : Leaves a principal value left) (hrest : LeavesEntries a principal rest lefts) :
      LeavesEntries a principal ((key, value) :: rest) ((key, left) :: lefts)
  | null {key : String} {p : Path} {rest lefts : List (String × Value)}
      (h : Hides a principal (.path p)) (hrest : LeavesEntries a principal rest lefts) :
      LeavesEntries a principal ((key, .path p) :: rest) ((key, .null) :: lefts)
  | drop {key : String} {id : EntityId} {rest lefts : List (String × Value)}
      (h : Hides a principal (.entity id)) (hrest : LeavesEntries a principal rest lefts) :
      LeavesEntries a principal ((key, .entity id) :: rest) lefts

end

mutual

theorem Leaves.sees_of_mem {value left : Value} (h : a.Leaves principal value left) :
    ∀ id ∈ left.ids, a.sees principal id = .ok true := by
  cases h with
  | entity h => simpa [Value.ids] using h
  | list h => simpa only [Value.ids] using h.sees_of_mem
  | path h => simpa only [Value.ids] using h
  | map h => simpa only [Value.ids] using h.sees_of_mem
  | scalar s => simp [Value.ids]

theorem LeavesItems.sees_of_mem {items left : List Value}
    (h : a.LeavesItems principal items left) :
    ∀ id ∈ Value.idsOfItems left, a.sees principal id = .ok true := by
  cases h with
  | nil => simp [Value.idsOfItems]
  | keep h hrest =>
    intro id hid
    rw [Value.idsOfItems, List.mem_append] at hid
    exact hid.elim (h.sees_of_mem id) (hrest.sees_of_mem id)
  | drop _ hrest => exact hrest.sees_of_mem

theorem LeavesEntries.sees_of_mem {entries left : List (String × Value)}
    (h : a.LeavesEntries principal entries left) :
    ∀ id ∈ Value.idsOfEntries left, a.sees principal id = .ok true := by
  cases h with
  | nil => simp [Value.idsOfEntries]
  | keep h hrest =>
    intro id hid
    rw [Value.idsOfEntries, List.mem_append] at hid
    exact hid.elim (h.sees_of_mem id) (hrest.sees_of_mem id)
  | null _ hrest =>
    intro id hid
    rw [Value.idsOfEntries, Value.null, Value.ids, List.nil_append] at hid
    exact hrest.sees_of_mem id hid
  | drop _ hrest => exact hrest.sees_of_mem

end

/-! ## Coherent memos -/

theorem Coherent.ask_isVisible (h : a.Coherent memo) (principal : Principal) (id : EntityId) :
    ((a.isVisible principal id).ask memo).1 = a.sees principal id := by
  have hsame : (a.answer memo principal id).map Prod.fst = (a.answer ∅ principal id).map Prod.fst :=
    answer_congr h.trusts trusts_empty
  rw [sees_eq, ← hsame, ← ask_permissions, isVisible, isAllowed, Query.ask_bind]
  cases (a.permissions principal id).ask memo with
  | mk r m => cases r <;> rfl

/-- No question for permissions makes a memo incoherent, or is answered differently from one
coherent memo to another. -/
theorem coherentAlike : a.PermissionsAlike a.Coherent a.Coherent a := by
  intro principal id m m' hm hm'
  have hanswer := (permissionsAlike rfl rfl m m' principal id m m' hm.steady hm'.steady).1
  exact ⟨hanswer, hm.permissions principal id, hm'.permissions principal id⟩

theorem Coherent.isVisible (h : a.Coherent memo) (principal : Principal) (id : EntityId) :
    a.Coherent ((a.isVisible principal id).ask memo).2 :=
  (alike_isVisible coherentAlike principal id memo memo h h).2.1

theorem Coherent.filter (h : a.Coherent memo) (principal : Principal) (value : Value) :
    a.Coherent ((a.filter principal value).ask memo).2 :=
  (alike_filter coherentAlike principal value memo memo h h).2.1

/-! ## The filter -/

/-- What the filter says of a value: what is left of it, or that nothing is. -/
def Reduces (a : Access ε) (principal : Principal) (value : Value) : Option Value → Prop
  | some left => a.Leaves principal value left
  | none => a.Hides principal value

theorem Coherent.ask_allVisible (h : a.Coherent memo) {ids : List EntityId} {b : Bool}
    (hr : ((a.allVisible principal ids).ask memo).1 = .ok b) :
    if b then ∀ id ∈ ids, a.sees principal id = .ok true
    else ∃ id ∈ ids, a.sees principal id = .ok false := by
  induction ids generalizing memo with
  | nil =>
    cases hr
    simp
  | cons id ids ih =>
    rw [allVisible, Query.ask_bind_eq_ok_iff] at hr
    obtain ⟨seen, hseen, hr⟩ := hr
    rw [h.ask_isVisible] at hseen
    cases seen with
    | true =>
      have hrest := ih (h.isVisible principal id) hr
      cases b with
      | true => exact List.forall_mem_cons.mpr ⟨hseen, hrest⟩
      | false => exact List.exists_mem_cons_of_exists hrest
    | false =>
      cases hr
      exact ⟨id, List.mem_cons_self, hseen⟩

mutual

/-- Over a coherent memo, what the filter gives is what is left of a value. -/
theorem Coherent.reduces_filter {memo : LocalMemo} (h : a.Coherent memo) {value : Value}
    {r : Option Value}
    (hr : ((a.filter principal value).ask memo).1 = .ok r) : a.Reduces principal value r := by
  cases value with
  | entity id =>
    rw [Access.filter, Query.ask_bind_eq_ok_iff] at hr
    obtain ⟨seen, hseen, hr⟩ := hr
    rw [h.ask_isVisible] at hseen
    cases seen with
    | true =>
      cases hr
      exact .entity hseen
    | false =>
      cases hr
      exact .entity hseen
  | list items =>
    rw [Access.filter, Query.ask_bind_eq_ok_iff] at hr
    obtain ⟨left, hleft, hr⟩ := hr
    cases hr
    exact .list (h.leaves_filterItems hleft)
  | path p =>
    rw [Access.filter, Query.ask_bind_eq_ok_iff] at hr
    obtain ⟨seen, hseen, hr⟩ := hr
    have hall := h.ask_allVisible hseen
    cases seen with
    | true =>
      cases hr
      exact .path hall
    | false =>
      cases hr
      obtain ⟨id, hid, hunseen⟩ := hall
      exact .path hid hunseen
  | map entries =>
    rw [Access.filter, Query.ask_bind_eq_ok_iff] at hr
    obtain ⟨left, hleft, hr⟩ := hr
    cases hr
    exact .map (h.leaves_filterEntries hleft)
  | scalar s =>
    rw [Access.filter] at hr
    cases hr
    exact .scalar s

theorem Coherent.leaves_filterItems {memo : LocalMemo} (h : a.Coherent memo)
    {items left : List Value}
    (hr : ((a.filterItems principal items).ask memo).1 = .ok left) :
    a.LeavesItems principal items left := by
  cases items with
  | nil =>
    rw [filterItems] at hr
    cases hr
    exact .nil
  | cons item rest =>
    rw [filterItems, Query.ask_bind_eq_ok_iff] at hr
    obtain ⟨reduced, hreduced, hr⟩ := hr
    rw [Query.ask_bind_eq_ok_iff] at hr
    obtain ⟨lefts, hlefts, hr⟩ := hr
    cases hr
    have hitem := h.reduces_filter hreduced
    have hrest := (h.filter principal item).leaves_filterItems hlefts
    cases reduced with
    | some left => exact .keep hitem hrest
    | none => exact .drop hitem hrest

theorem Coherent.leaves_filterEntries {memo : LocalMemo} (h : a.Coherent memo)
    {entries left : List (String × Value)}
    (hr : ((a.filterEntries principal entries).ask memo).1 = .ok left) :
    a.LeavesEntries principal entries left := by
  match entries with
  | [] =>
    rw [filterEntries] at hr
    cases hr
    exact .nil
  | (key, value) :: rest =>
    rw [filterEntries, Query.ask_bind_eq_ok_iff] at hr
    obtain ⟨reduced, hreduced, hr⟩ := hr
    rw [Query.ask_bind_eq_ok_iff] at hr
    obtain ⟨lefts, hlefts, hr⟩ := hr
    cases hr
    have hvalue := h.reduces_filter hreduced
    have hrest := (h.filter principal value).leaves_filterEntries hlefts
    cases reduced with
    | some left => exact .keep hvalue hrest
    | none =>
      cases hvalue with
      | entity h => exact .drop (.entity h) hrest
      | path hmem h => exact .null (.path hmem h) hrest

end

/-- The filter never leaks: after any questions over one memo, what it leaves of a value holds only
entities that can be read over an empty memo, and is the value without what can not. -/
theorem filter_eq_some {questions : List Question}
    (h : ((a.filter principal value).ask (a.memoAfter questions ∅)).1 = .ok (some left)) :
    (∀ id ∈ left.ids, a.sees principal id = .ok true) ∧ a.Leaves principal value left := by
  have hleaves := (complete_empty.memoAfter questions).coherent.reduces_filter h
  exact ⟨Leaves.sees_of_mem hleaves, hleaves⟩

/-- A page that a user can read, a page that can be read over it, and one that can not be read. -/
def shelfTables : Tables where
  entities := .ofList ([
    (⟨1⟩, .node "User"), (⟨10⟩, .node "Page"), (⟨11⟩, .node "Page"), (⟨12⟩, .node "Page"),
    (⟨20⟩, .relationship "Link" ⟨10⟩ ⟨11⟩), (⟨21⟩, .relationship "Note" ⟨11⟩ ⟨12⟩)] :
    List (EntityId × Entity))
  grants := ((∅ : Grants).grant ⟨1⟩ ⟨10⟩ (.single .read)).2
  rules := (∅ : RuleBook).declare "Link" ⟨.outward, { read := .add }⟩

def shelf : Access Unavailable := { view := shelfTables.view, settings := {} }

/-- A map that holds an entity, a list and two paths. -/
def shelfValue : Value := .map [
  ("first", .entity ⟨12⟩), ("pages", .list [.entity ⟨12⟩, .entity ⟨11⟩, .list [.entity ⟨10⟩]]),
  ("there", .path ⟨[⟨10⟩, ⟨20⟩, ⟨11⟩]⟩), ("beyond", .path ⟨[⟨11⟩, ⟨21⟩, ⟨12⟩]⟩)]

theorem filter_eq_some_shelf : ∃ left,
    ((shelf.filter (.user ⟨1⟩) shelfValue).ask (shelf.memoAfter
      [.canLink (.user ⟨1⟩) ⟨12⟩ ⟨11⟩, .isVisible .anonymous ⟨11⟩] ∅)).1 = .ok (some left) ∧
      left.ids = [⟨11⟩, ⟨10⟩, ⟨10⟩, ⟨20⟩, ⟨11⟩] ∧
      (∀ id ∈ left.ids, shelf.sees (.user ⟨1⟩) id = .ok true) ∧
      shelf.Leaves (.user ⟨1⟩) shelfValue left := by
  obtain ⟨reduced, hreduced, hmap⟩ := exists_of_map_eq_ok
    (show ((shelf.filter (.user ⟨1⟩) shelfValue).ask (shelf.memoAfter
      [.canLink (.user ⟨1⟩) ⟨12⟩ ⟨11⟩, .isVisible .anonymous ⟨11⟩] ∅)).1.map
        (·.map Value.ids) = .ok (some [⟨11⟩, ⟨10⟩, ⟨10⟩, ⟨20⟩, ⟨11⟩]) by decide +kernel)
  obtain ⟨left, rfl, hids⟩ := Option.map_eq_some_iff.mp hmap
  exact ⟨left, hreduced, hids, filter_eq_some hreduced⟩

end Access
end PermissionGraph
