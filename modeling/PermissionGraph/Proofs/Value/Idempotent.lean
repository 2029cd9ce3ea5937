import PermissionGraph.Proofs.Value.Veiled

/-!
# PermissionGraph.Proofs.Value.Idempotent

When the filter changes nothing, and when it leaves nothing. A value stays as it is exactly if the
principal can read all that occurs in it; what the filter leaves of any value is such a value, so
filtering it again gives it back (`filter_idempotent`).

* `Coherent.ask_filter_of_sees`: a value that can be read stays as it is.
* `Coherent.ask_filter_eq_none_iff`: nothing is left of an entity or a path that stops the
  principal, and of no other value.
-/

namespace PermissionGraph

variable {ε : Type}

namespace Access

open Query

variable {a : Access ε} {memo : LocalMemo} {principal : Principal} {ids : List EntityId}
  {value : Value}

/-! ## Values that stay -/

theorem Coherent.ask_allVisible_of_sees (h : a.Coherent memo)
    (hall : ∀ id ∈ ids, a.sees principal id = .ok true) :
    ((a.allVisible principal ids).ask memo).1 = .ok true := by
  induction ids generalizing memo with
  | nil => rfl
  | cons id ids ih =>
    obtain ⟨hid, hids⟩ := List.forall_mem_cons.mp hall
    have hfirst := (h.ask_isVisible principal id).trans hid
    rw [allVisible, ask_bind_of_ok hfirst]
    exact ih (h.isVisible principal id) hids

mutual

theorem Coherent.ask_filter_of_sees {memo : LocalMemo} (h : a.Coherent memo) {value : Value}
    (hall : ∀ id ∈ value.ids, a.sees principal id = .ok true) :
    ((a.filter principal value).ask memo).1 = .ok (some value) := by
  cases value with
  | entity id =>
    have hid := hall id (by simp [Value.ids])
    rw [Access.filter, ask_bind_of_ok ((h.ask_isVisible principal id).trans hid)]
    rfl
  | list items =>
    simp only [Value.ids] at hall
    rw [Access.filter, ask_bind_of_ok (h.ask_filterItems_of_sees hall)]
    rfl
  | path p =>
    simp only [Value.ids] at hall
    rw [Access.filter, ask_bind_of_ok (h.ask_allVisible_of_sees hall)]
    rfl
  | map entries =>
    simp only [Value.ids] at hall
    rw [Access.filter, ask_bind_of_ok (h.ask_filterEntries_of_sees hall)]
    rfl
  | scalar s =>
    rw [Access.filter]
    rfl

theorem Coherent.ask_filterItems_of_sees {memo : LocalMemo} (h : a.Coherent memo)
    {items : List Value} (hall : ∀ id ∈ Value.idsOfItems items, a.sees principal id = .ok true) :
    ((a.filterItems principal items).ask memo).1 = .ok items := by
  cases items with
  | nil =>
    rw [filterItems]
    rfl
  | cons item rest =>
    simp only [Value.idsOfItems, List.forall_mem_append] at hall
    have hitem := h.ask_filter_of_sees hall.1
    have hrest := (h.filter principal item).ask_filterItems_of_sees hall.2
    rw [filterItems, ask_bind_of_ok hitem, ask_bind_of_ok hrest]
    rfl

theorem Coherent.ask_filterEntries_of_sees {memo : LocalMemo} (h : a.Coherent memo)
    {entries : List (String × Value)}
    (hall : ∀ id ∈ Value.idsOfEntries entries, a.sees principal id = .ok true) :
    ((a.filterEntries principal entries).ask memo).1 = .ok entries := by
  match entries with
  | [] =>
    rw [filterEntries]
    rfl
  | (key, value) :: rest =>
    simp only [Value.idsOfEntries, List.forall_mem_append] at hall
    have hvalue := h.ask_filter_of_sees hall.1
    have hrest := (h.filter principal value).ask_filterEntries_of_sees hall.2
    rw [filterEntries, ask_bind_of_ok hvalue, ask_bind_of_ok hrest]
    rfl

end

theorem Coherent.ask_filter_eq_self_iff (h : a.Coherent memo) :
    ((a.filter principal value).ask memo).1 = .ok (some value) ↔
      ∀ id ∈ value.ids, a.sees principal id = .ok true :=
  ⟨fun hr => Leaves.sees_of_mem (h.reduces_filter hr), h.ask_filter_of_sees⟩

/-! ## Values that go -/

theorem Coherent.ask_allVisible_eq_false_iff (h : a.Coherent memo) :
    ((a.allVisible principal ids).ask memo).1 = .ok false ↔ a.Stops principal ids (.ok false) := by
  constructor
  · intro hr
    induction ids generalizing memo with
    | nil => cases hr
    | cons id ids ih =>
      rw [allVisible, ask_bind_eq_ok_iff] at hr
      obtain ⟨seen, hseen, hr⟩ := hr
      rw [h.ask_isVisible] at hseen
      cases seen with
      | true => exact .later hseen (ih (h.isVisible principal id) hr)
      | false => exact .here hseen (by simp)
  · exact h.ask_allVisible_of_stops

/-- Over a coherent memo, nothing is left of an entity that can not be read, nor of a path whose
first entity that is not read can not be read, and something is left of every other value. -/
theorem Coherent.ask_filter_eq_none_iff (h : a.Coherent memo) :
    ((a.filter principal value).ask memo).1 = .ok none ↔
      (∃ id, value = .entity id ∧ a.sees principal id = .ok false) ∨
        ∃ p, value = .path p ∧ a.Stops principal p.elements (.ok false) := by
  constructor
  · intro hr
    have hhides : a.Hides principal value := h.reduces_filter hr
    cases hhides with
    | @entity id hsees => exact .inl ⟨id, rfl, hsees⟩
    | @path p =>
      rw [Access.filter, ask_bind_eq_ok_iff] at hr
      obtain ⟨seen, hseen, hr⟩ := hr
      cases seen with
      | true => cases hr
      | false => exact .inr ⟨p, rfl, h.ask_allVisible_eq_false_iff.mp hseen⟩
  · intro hv
    rcases hv with ⟨id, rfl, hsees⟩ | ⟨p, rfl, hs⟩
    · exact h.ask_filter_entity (.here hsees (by simp))
    · exact h.ask_filter_path hs

/-! ## Filtering again -/

/-- Filtering is idempotent, and lossless where all can be read. Whatever was asked over either memo
before, the filter itself included: what it leaves of a value it leaves as it is when it comes to
it again, a value stays as it is exactly if all that occurs in it can be read, and nothing is left
only of an entity or a path. -/
theorem filter_idempotent (a : Access ε) (principal : Principal) (value : Value)
    (questions again : List Question) :
    (∀ left, ((a.filter principal value).ask (a.memoAfter questions ∅)).1 = .ok (some left) →
      ((a.filter principal left).ask (a.memoAfter again ∅)).1 = .ok (some left)) ∧
    (((a.filter principal value).ask (a.memoAfter questions ∅)).1 = .ok (some value) ↔
      ∀ id ∈ value.ids, a.sees principal id = .ok true) ∧
    (((a.filter principal value).ask (a.memoAfter questions ∅)).1 = .ok none ↔
      (∃ id, value = .entity id ∧ a.sees principal id = .ok false) ∨
        ∃ p, value = .path p ∧ a.Stops principal p.elements (.ok false)) := by
  have hcoherent := (complete_empty.memoAfter (a := a) questions).coherent
  have hagain := (complete_empty.memoAfter (a := a) again).coherent
  refine ⟨fun left hleft => ?_, hcoherent.ask_filter_eq_self_iff, hcoherent.ask_filter_eq_none_iff⟩
  have hleaves : a.Leaves principal value left := hcoherent.reduces_filter hleft
  exact hagain.ask_filter_of_sees hleaves.sees_of_mem

/-- What a user keeps of a map with two pages that can not be read and a path over one of them stays
as it is when a second look begins with an empty memo; of the path alone nothing is left. -/
theorem filter_idempotent_shelf :
    let asked : List Question := [.isVisible .anonymous ⟨11⟩, .filter (.user ⟨1⟩) shelfValue]
    (∃ left, ((shelf.filter (.user ⟨1⟩) shelfValue).ask (shelf.memoAfter asked ∅)).1 =
        .ok (some left) ∧
      left.ids = [⟨11⟩, ⟨10⟩, ⟨10⟩, ⟨20⟩, ⟨11⟩] ∧
      ((shelf.filter (.user ⟨1⟩) left).ask (shelf.memoAfter [] ∅)).1 = .ok (some left)) ∧
    ((shelf.filter (.user ⟨1⟩) (.path ⟨[⟨11⟩, ⟨21⟩, ⟨12⟩]⟩)).ask (shelf.memoAfter asked ∅)).1 =
      .ok none := by
  intro asked
  have hreads : ∀ id ∈ [⟨11⟩, ⟨21⟩, ⟨12⟩], shelf.sees (.user ⟨1⟩) id = .ok (id == ⟨11⟩) := by
    decide +kernel
  obtain ⟨reduced, hreduced, hmap⟩ := exists_of_map_eq_ok
    (show ((shelf.filter (.user ⟨1⟩) shelfValue).ask (shelf.memoAfter asked ∅)).1.map
      (·.map Value.ids) = .ok (some [⟨11⟩, ⟨10⟩, ⟨10⟩, ⟨20⟩, ⟨11⟩]) by decide +kernel)
  obtain ⟨left, rfl, hids⟩ := Option.map_eq_some_iff.mp hmap
  refine ⟨⟨left, hreduced, hids, ?_⟩, ?_⟩
  · exact (filter_idempotent shelf (.user ⟨1⟩) shelfValue asked []).1 left hreduced
  · refine (filter_idempotent shelf (.user ⟨1⟩) _ asked []).2.2.mpr (.inr ⟨_, rfl, ?_⟩)
    exact .later (hreads ⟨11⟩ (by simp)) (.here (hreads ⟨21⟩ (by simp)) (by simp))

end Access
end PermissionGraph
