import Mathlib.Order.Monotone.Basic
import PermissionGraph.Proofs.Access.Oscillation
import PermissionGraph.Proofs.Access.Support

/-!
# PermissionGraph.Proofs.Access.Convergence

Cycles whose rounds come to a stable assignment. If that happens within the bound, the iteration
ends with it; if it happens later, the iteration has already ended with the fallback
(`settle_of_stable`). The bound was counted for cycles on which every round adds a kind to a member.
A kind that is taken away from a member, if only in the first round, can take longer than that
(`settle_ne_after_relay`).

Kinds do not meddle with each other (`holds_combine_congr`), so the count can be made for one kind
alone. A kind that no member takes from a member, and nothing outside from a member's base, is only
ever gained (`Undisturbed`). It has settled after one round for each member, whatever becomes of the
others, and is what every stable assignment says.
-/

namespace PermissionGraph

open Std

namespace Derivation

variable {d : Derivation} {f g : EntityId → PermissionSet} {k : Permission}

theorem holds_combine_congr (h : ∀ o ∈ d.origins, (f o).holds k = (g o).holds k) :
    (d.combine f).holds k = (d.combine g).holds k := by
  have himp : ∀ {f g : EntityId → PermissionSet},
      (∀ o ∈ d.origins, (f o).holds k = (g o).holds k) →
      (d.combine f).holds k = true → (d.combine g).holds k = true := by
    intro f g h hk
    obtain ⟨hgiven, hkept⟩ := holds_combine_iff.mp hk
    refine holds_combine_iff.mpr ⟨hgiven.imp_right ?_, fun other rule hi hrule => ?_⟩
    · rintro ⟨i, hi, hgives⟩
      refine ⟨i, hi, Input.gives_of_imp (fun o ho hk => ?_) hgives⟩
      rwa [← h o (mem_origins.mpr ⟨i, hi, ho⟩)]
    · rw [← h other (mem_origins.mpr ⟨_, hi, List.mem_singleton_self other⟩)]
      exact hkept other rule hi hrule
  exact Bool.eq_iff_iff.mpr ⟨himp h, himp fun o ho => (h o ho).symm⟩

end Derivation

namespace Settling

variable {members : Derivations} {outside : EntityId → PermissionSet} {id : EntityId}
  {d : Derivation} {k : Permission} {m n N : Nat}

/-! ## Stable assignments -/

/-- The rounds have come to an assignment that a further round does not change. -/
def StableAt (members : Derivations) (outside : EntityId → PermissionSet) (n : Nat) : Prop :=
  round members outside (after members outside n) = after members outside n

instance : Decidable (StableAt members outside n) :=
  inferInstanceAs (Decidable (round members outside (after members outside n) =
    after members outside n))

theorem settle_of_lt_bound (h : StableAt members outside N) (hN : N < bound members) :
    settle members outside = after members outside N := by
  rcases iterate_spec members outside (bound members) (bases members) with
    ⟨n, _, hstable, hsettle⟩ | ⟨hall, _⟩
  · rw [settle, hsettle]
    show after members outside n = after members outside N
    rcases Nat.le_total n N with hle | hle
    · exact (after_eq_of_stable hstable hle).symm
    · exact after_eq_of_stable h hle
  · exact absurd h (hall N hN)

theorem settle_of_not_stableAt (h : ∀ n < bound members, ¬ StableAt members outside n) :
    settle members outside = fallback members outside (after members outside (bound members)) := by
  rcases iterate_spec members outside (bound members) (bases members) with
    ⟨n, hn, hstable, _⟩ | ⟨_, hsettle⟩
  · exact absurd hstable (h n hn)
  · exact hsettle

/-! ## One kind -/

/-- A kind is undisturbed on a cycle when no member takes it away from a member, and nothing outside
takes it away where it is in the base. -/
def Undisturbed (members : Derivations) (outside : EntityId → PermissionSet) (k : Permission) :
    Prop :=
  ∀ (id : EntityId) (d : Derivation), members[id]? = some d → ∀ other rule,
    .propagated other rule ∈ d.inputs → rule.effect k = .remove →
      other ∉ members ∧ (d.base.holds k = true → (outside other).holds k = false)

/-- Whether a kind is undisturbed, by going through the inputs of every member. -/
def isUndisturbed (members : Derivations) (outside : EntityId → PermissionSet) (k : Permission) :
    Bool :=
  members.toList.all fun row => row.2.inputs.all fun
    | .propagated other rule => decide (rule.effect k = .remove →
        other ∉ members ∧ (row.2.base.holds k = true → (outside other).holds k = false))
    | .endpoints .. => true

theorem isUndisturbed_iff :
    isUndisturbed members outside k = true ↔ Undisturbed members outside k := by
  rw [isUndisturbed, List.all_eq_true]
  constructor
  · intro h id d hd other rule hi hrule
    have hrow := h (id, d) (ExtTreeMap.mem_toList_iff_getElem?_eq_some.mpr hd)
    exact of_decide_eq_true (List.all_eq_true.mp hrow _ hi) hrule
  · rintro h ⟨id, d⟩ hrow
    have hd := ExtTreeMap.mem_toList_iff_getElem?_eq_some.mp hrow
    refine List.all_eq_true.mpr fun i hi => ?_
    cases i with
    | propagated other rule => exact decide_eq_true fun hrule => h id d hd other rule hi hrule
    | endpoints source target => rfl

instance : Decidable (Undisturbed members outside k) := decidable_of_iff _ isUndisturbed_iff

theorem holdsAfter_zero (hd : members[id]? = some d) :
    holdsAfter members outside id k 0 = d.base.holds k := by
  rw [holdsAfter, after, Function.iterate_zero, id_eq, held_bases hd]

theorem holdsAfter_succ (hd : members[id]? = some d) :
    holdsAfter members outside id k (n + 1) =
      (d.combine (held outside (after members outside n))).holds k := by
  rw [holdsAfter, after_succ, held_round hd]

theorem holdsAfter_of_notMem (hid : id ∉ members) :
    holdsAfter members outside id k n = (outside id).holds k := by
  rw [holdsAfter, held_of_notMem over_after hid]

/-- The members that hold a kind after some rounds. -/
def holders (members : Derivations) (outside : EntityId → PermissionSet) (k : Permission)
    (n : Nat) : Finset EntityId :=
  members.keys.toFinset.filter fun id => holdsAfter members outside id k n = true

theorem mem_holders : id ∈ holders members outside k n ↔
    id ∈ members ∧ holdsAfter members outside id k n = true := by
  simp [holders]

theorem card_holders_le : (holders members outside k n).card ≤ members.size := by
  rw [← ExtTreeMap.length_keys]
  exact (Finset.card_filter_le _ _).trans (List.toFinset_card_le _)

theorem holdsAfter_eq_of_holders_eq (h : holders members outside k m = holders members outside k n)
    (id : EntityId) : holdsAfter members outside id k m = holdsAfter members outside id k n := by
  by_cases hid : id ∈ members
  · have hiff := Finset.ext_iff.mp h id
    rw [mem_holders, mem_holders, and_iff_right hid, and_iff_right hid] at hiff
    exact Bool.eq_iff_iff.mpr hiff
  · rw [holdsAfter_of_notMem hid, holdsAfter_of_notMem hid]

theorem holders_succ_eq (h : holders members outside k m = holders members outside k n) :
    holders members outside k (m + 1) = holders members outside k (n + 1) := by
  apply Finset.ext
  intro id
  rw [mem_holders, mem_holders]
  refine and_congr_right fun hid => ?_
  obtain ⟨d, hd⟩ := Derivations.mem_iff_getElem?.mp hid
  rw [holdsAfter_succ hd, holdsAfter_succ hd, Derivation.holds_combine_congr fun o _ =>
    holdsAfter_eq_of_holders_eq h o]

namespace Undisturbed

variable (h : Undisturbed members outside k)
include h

theorem holdsAfter_eq_false (hd : members[id]? = some d)
    (hk : holdsAfter members outside id k m = true) {other : EntityId} {rule : Rule}
    (hi : .propagated other rule ∈ d.inputs) (hrule : rule.effect k = .remove) :
    holdsAfter members outside other k n = false := by
  obtain ⟨hother, hbase⟩ := h id d hd other rule hi hrule
  rw [holdsAfter_of_notMem hother]
  cases m with
  | zero =>
    rw [holdsAfter_zero hd] at hk
    exact hbase hk
  | succ m =>
    rw [holdsAfter_succ hd, Derivation.holds_combine_iff] at hk
    rw [← hk.2 other rule hi hrule, held_of_notMem over_after hother]

theorem holdsAfter_succ_of_gives (hd : members[id]? = some d)
    (hk : holdsAfter members outside id k n = true)
    (hgiven : d.base.holds k = true ∨
      ∃ i ∈ d.inputs, i.gives (held outside (after members outside n)) k = true) :
    holdsAfter members outside id k (n + 1) = true := by
  rw [holdsAfter_succ hd, Derivation.holds_combine_iff]
  exact ⟨hgiven, fun _ _ hi hrule => h.holdsAfter_eq_false hd hk hi hrule⟩

theorem holdsAfter_succ_of_holdsAfter (hk : holdsAfter members outside id k n = true) :
    holdsAfter members outside id k (n + 1) = true := by
  induction n generalizing id with
  | zero =>
    by_cases hid : id ∈ members
    · obtain ⟨d, hd⟩ := Derivations.mem_iff_getElem?.mp hid
      exact h.holdsAfter_succ_of_gives hd hk (.inl ((holdsAfter_zero hd).symm.trans hk))
    · rwa [holdsAfter_of_notMem hid] at hk ⊢
  | succ n ih =>
    by_cases hid : id ∈ members
    · obtain ⟨d, hd⟩ := Derivations.mem_iff_getElem?.mp hid
      refine h.holdsAfter_succ_of_gives hd hk ?_
      rw [holdsAfter_succ hd, Derivation.holds_combine_iff] at hk
      refine hk.1.imp_right ?_
      rintro ⟨i, hi, hgives⟩
      exact ⟨i, hi, Input.gives_of_imp (fun _ _ ho => ih ho) hgives⟩
    · rwa [holdsAfter_of_notMem hid] at hk ⊢

theorem holders_mono : Monotone (holders members outside k) := by
  refine monotone_nat_of_le_succ fun n id hid => ?_
  rw [mem_holders] at hid ⊢
  exact ⟨hid.1, h.holdsAfter_succ_of_holdsAfter hid.2⟩

/-- There is a member to be gained for every round that changes who holds the kind. -/
theorem holders_eq (hn : members.size ≤ n) :
    holders members outside k n = holders members outside k members.size := by
  have hmono : Monotone fun n => (holders members outside k n).card :=
    fun m n hmn => Finset.card_le_card (h.holders_mono hmn)
  have heq : ∀ {m n}, m ≤ n → (holders members outside k m).card =
      (holders members outside k n).card →
      holders members outside k m = holders members outside k n :=
    fun hmn hcard => Finset.eq_of_subset_of_card_le (h.holders_mono hmn) hcard.ge
  have hstab : ∀ m, (holders members outside k m).card = (holders members outside k (m + 1)).card →
      (holders members outside k (m + 1)).card = (holders members outside k (m + 2)).card :=
    fun m hcard => congrArg Finset.card (holders_succ_eq (heq (Nat.le_succ m) hcard))
  have hcard := Nat.stabilises_of_monotone hmono (fun _ => card_holders_le) hstab hn
  exact (heq hn hcard.symm).symm

/-- An undisturbed kind has settled after one round for each member, also where others make the
iteration use up its rounds. -/
theorem holds_settle (hd : members[id]? = some d) (hn : members.size ≤ n) :
    (held outside (settle members outside) id).holds k =
      holdsAfter members outside id k n := by
  have hsame : ∀ {i j}, members.size ≤ i → members.size ≤ j →
      holdsAfter members outside id k i = holdsAfter members outside id k j := fun hi hj =>
    holdsAfter_eq_of_holders_eq ((h.holders_eq hi).trans (h.holders_eq hj).symm) id
  have hbound : members.size ≤ bound members := by
    have hkinds : Permission.all.length = 5 := rfl
    rw [bound, hkinds]
    omega
  by_cases hstable : ∃ N < bound members, StableAt members outside N
  · obtain ⟨N, hN, hstable⟩ := hstable
    rw [settle_of_lt_bound hstable hN, ← after_eq_of_stable hstable (Nat.le_max_left N n)]
    exact hsame (hn.trans (Nat.le_max_right N n)) hn
  · push Not at hstable
    rw [settle_of_not_stableAt hstable, held_fallback hd, holds_withoutChanging]
    show (if holdsAfter members outside id k (bound members) =
        holdsAfter members outside id k (bound members + 1)
      then holdsAfter members outside id k (bound members) else d.base.holds k) = _
    rw [if_pos (hsame hbound (hbound.trans (Nat.le_succ _)))]
    exact hsame hbound hn

end Undisturbed

/-- A cycle whose rounds come to a stable assignment ends with it, if they do so within the bound;
else it ends with the fallback after the last round. An undisturbed kind is in any case what the
stable assignment says. -/
theorem settle_of_stable (h : StableAt members outside N) :
    (N < bound members → settle members outside = after members outside N) ∧
    ((∀ n < bound members, ¬ StableAt members outside n) →
      settle members outside =
        fallback members outside (after members outside (bound members))) ∧
    ∀ k, Undisturbed members outside k → ∀ id ∈ members,
      (held outside (settle members outside) id).holds k =
        (held outside (after members outside N) id).holds k := by
  refine ⟨settle_of_lt_bound h, settle_of_not_stableAt, fun k hk id hid => ?_⟩
  obtain ⟨d, hd⟩ := Derivations.mem_iff_getElem?.mp hid
  rw [hk.holds_settle hd (Nat.le_max_right N members.size), holdsAfter,
    after_eq_of_stable h (Nat.le_max_left N members.size)]

end Settling

/-! ## A cycle that settles late -/

namespace Access

open Settling

/-- Eight pages in a ring, the last of which is also linked with the second, so that there are ways
round of eight links and of seven. What they pass on comes from a ninth page, from which reading,
but not writing, is taken away. -/
def relayTables : Tables where
  entities := .ofList ([
    (⟨1⟩, .node "User"), (⟨9⟩, .node "Page"), (⟨10⟩, .node "Page"), (⟨11⟩, .node "Page"),
    (⟨12⟩, .node "Page"), (⟨13⟩, .node "Page"), (⟨14⟩, .node "Page"), (⟨15⟩, .node "Page"),
    (⟨16⟩, .node "Page"), (⟨17⟩, .node "Page"), (⟨18⟩, .node "Page"),
    (⟨20⟩, .relationship "Link" ⟨10⟩ ⟨11⟩), (⟨21⟩, .relationship "Link" ⟨11⟩ ⟨12⟩),
    (⟨22⟩, .relationship "Link" ⟨12⟩ ⟨13⟩), (⟨23⟩, .relationship "Link" ⟨13⟩ ⟨14⟩),
    (⟨24⟩, .relationship "Link" ⟨14⟩ ⟨15⟩), (⟨25⟩, .relationship "Link" ⟨15⟩ ⟨16⟩),
    (⟨26⟩, .relationship "Link" ⟨16⟩ ⟨17⟩), (⟨27⟩, .relationship "Link" ⟨17⟩ ⟨18⟩),
    (⟨28⟩, .relationship "Link" ⟨18⟩ ⟨10⟩), (⟨29⟩, .relationship "Link" ⟨18⟩ ⟨11⟩),
    (⟨30⟩, .relationship "Link" ⟨18⟩ ⟨12⟩), (⟨31⟩, .relationship "Bar" ⟨9⟩ ⟨10⟩)] :
    List (EntityId × Entity))
  grants := (((∅ : Grants).grant ⟨1⟩ ⟨9⟩ (.single .read)).2.grant ⟨1⟩ ⟨10⟩
    (.single .read ∪ .single .write)).2
  rules := (RuleBook.declare ∅ "Link" ⟨.outward, { read := .add, write := .add }⟩).declare "Bar"
    ⟨.outward, { read := .remove }⟩

def relay : Access Unavailable where
  view := relayTables.recover.view
  settings := {}

/-- The nine pages that hang on each other. -/
def relayCycle : Derivations := (relay.derivations (.user ⟨1⟩)).componentOf ⟨10⟩

/-- What is held outside the cycle: reading, on the page that takes it away. -/
def relayOutside (id : EntityId) : PermissionSet := if id = ⟨9⟩ then .single .read else ∅

theorem stableAt_relay : StableAt relayCycle relayOutside 51 := by decide +kernel

theorem settle_relay_ne :
    settle relayCycle relayOutside ≠ after relayCycle relayOutside 51 := by
  decide +kernel

/-- Reading takes 51 rounds to get to every page of the ring, but the rounds are used up after 46.
Writing is there after 9. -/
theorem settle_of_stable_relay : StableAt relayCycle relayOutside 51 ∧
    settle relayCycle relayOutside =
      fallback relayCycle relayOutside (after relayCycle relayOutside 46) ∧
    Undisturbed relayCycle relayOutside .write ∧
    (held relayOutside (settle relayCycle relayOutside) ⟨15⟩).holds .write = true := by
  have hwrite : Undisturbed relayCycle relayOutside .write := by decide +kernel
  have hbound : bound relayCycle = 46 := by decide +kernel
  obtain ⟨_, hfallback, hundisturbed⟩ := settle_of_stable stableAt_relay
  rw [hbound] at hfallback
  refine ⟨stableAt_relay, hfallback fun n hn h => settle_relay_ne ?_, hwrite, ?_⟩
  · rw [after_eq_of_stable h (by omega)]
    exact settle_of_lt_bound h (hbound ▸ hn)
  · rw [hundisturbed .write hwrite ⟨15⟩ (by decide +kernel)]
    decide +kernel

/-- The iteration does not end with the stable assignment that its rounds come to: that one lets a
page be read which the iteration leaves without reading. -/
theorem settle_ne_after_relay : StableAt relayCycle relayOutside 51 ∧
    settle relayCycle relayOutside ≠ after relayCycle relayOutside 51 ∧
    holdsAfter relayCycle relayOutside ⟨15⟩ .read 51 = true ∧
    (relay.answer ∅ (.user ⟨1⟩) ⟨15⟩).map Prod.fst = .ok (.single .write) :=
  ⟨stableAt_relay, settle_relay_ne, by decide +kernel⟩

end Access
end PermissionGraph
