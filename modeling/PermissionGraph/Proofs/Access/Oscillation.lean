import Mathlib.Dynamics.PeriodicPts.Defs
import PermissionGraph.Proofs.Access.Available

/-!
# PermissionGraph.Proofs.Access.Oscillation

Kinds that come and go without end. Where a cycle both adds and removes, a kind can be gained and
lost by a member for ever (`Settling.Wavers`). The iteration then uses up its rounds, and whether
the member is left with its base is decided by one more round alone (`holds_settle_of_wavers`): the
base is what it keeps of a kind that this round changes. A kind that is gained and lost by turns is
changed in every round, so it falls back to the base. One that stays as it is for two rounds or more
may happen to do so at the end, and then the member is left with it or without it, whatever its base
(`not_base_carousel`).
-/

namespace PermissionGraph

open Std

namespace Settling

variable {members : Derivations} {outside : EntityId → PermissionSet} {id : EntityId}
  {d : Derivation} {k : Permission} {n : Nat}

/-- Whether an entity holds a kind after some rounds. -/
def holdsAfter (members : Derivations) (outside : EntityId → PermissionSet) (id : EntityId)
    (k : Permission) (n : Nat) : Bool :=
  (held outside (after members outside n) id).holds k

/-- A kind comes and goes on an entity, round after round, and never becomes constant. -/
def Wavers (members : Derivations) (outside : EntityId → PermissionSet) (id : EntityId)
    (k : Permission) : Prop :=
  ¬ ∃ N, ∀ n ≥ N, holdsAfter members outside id k n = holdsAfter members outside id k N

theorem after_eq_of_stable {N : Nat}
    (h : round members outside (after members outside N) = after members outside N) (hn : N ≤ n) :
    after members outside n = after members outside N := by
  obtain ⟨m, rfl⟩ := Nat.exists_eq_add_of_le hn
  rw [after, Nat.add_comm, Function.iterate_add_apply]
  exact Function.iterate_fixed h m

theorem settle_of_wavers (h : Wavers members outside id k) :
    settle members outside =
      fallback members outside (after members outside (bound members)) := by
  rcases iterate_spec members outside (bound members) (bases members) with
    ⟨N, _, hstable, _⟩ | ⟨_, hsettle⟩
  · refine absurd ⟨N, fun n hn => ?_⟩ h
    rw [holdsAfter, after_eq_of_stable hstable hn, holdsAfter]
  · exact hsettle

theorem ne_succ_of_alternates {N : Nat} (h : Wavers members outside id k)
    (halternates : ∀ n ≥ N,
      holdsAfter members outside id k (n + 2) = holdsAfter members outside id k n) :
    holdsAfter members outside id k N ≠ holdsAfter members outside id k (N + 1) := by
  intro heq
  have hpair : ∀ n ≥ N, holdsAfter members outside id k n = holdsAfter members outside id k N ∧
      holdsAfter members outside id k (n + 1) = holdsAfter members outside id k N := by
    intro n hn
    induction n, hn using Nat.le_induction with
    | base => exact ⟨rfl, heq.symm⟩
    | succ n hn ih => exact ⟨ih.2, (halternates n hn).trans ih.1⟩
  exact h ⟨N, fun n hn => (hpair n hn).1⟩

/-- What a member is left with of a kind that comes and goes without end: its base, if one more
round after the last changes the kind, and else the kind as the last round gives it. If every second
round undoes the one before, that is the base. -/
theorem holds_settle_of_wavers (hd : members[id]? = some d) (h : Wavers members outside id k) :
    ((held outside (settle members outside) id).holds k =
      if holdsAfter members outside id k (bound members) =
          holdsAfter members outside id k (bound members + 1)
      then holdsAfter members outside id k (bound members) else d.base.holds k) ∧
    ((∀ n ≥ bound members,
        holdsAfter members outside id k (n + 2) = holdsAfter members outside id k n) →
      (held outside (settle members outside) id).holds k = d.base.holds k) := by
  have hfallback : (held outside (settle members outside) id).holds k =
      if holdsAfter members outside id k (bound members) =
          holdsAfter members outside id k (bound members + 1)
      then holdsAfter members outside id k (bound members) else d.base.holds k := by
    rw [settle_of_wavers h, held_fallback hd, holds_withoutChanging]
    rfl
  refine ⟨hfallback, fun halternates => ?_⟩
  rw [hfallback, if_neg (ne_succ_of_alternates h halternates)]

/-! ## Periods -/

section Period

variable {p : Nat} (hperiod : (round members outside).IsPeriodicPt p (bases members))
include hperiod

theorem holdsAfter_add_mul (N : Nat) :
    holdsAfter members outside id k (n + p * N) = holdsAfter members outside id k n := by
  rw [holdsAfter, after, Function.iterate_add_apply, (hperiod.mul_const N).eq]
  rfl

theorem wavers_of_isPeriodicPt (hp : 0 < p) {i j : Nat}
    (hne : holdsAfter members outside id k i ≠ holdsAfter members outside id k j) :
    Wavers members outside id k := by
  rintro ⟨N, hN⟩
  have hlarge : ∀ m, N ≤ m + p * N := fun m =>
    (Nat.le_mul_of_pos_left N hp).trans (Nat.le_add_left _ m)
  have hi := hN _ (hlarge i)
  have hj := hN _ (hlarge j)
  rw [holdsAfter_add_mul hperiod] at hi hj
  exact hne (hi.trans hj.symm)

end Period
end Settling

/-! ## Cycles that never settle -/

namespace Access

open Settling

/-- A page that takes reading away from itself. -/
def pendulumTables : Tables where
  entities := .ofList ([(⟨1⟩, .node "User"), (⟨10⟩, .node "Page"),
    (⟨20⟩, .relationship "Bar" ⟨10⟩ ⟨10⟩)] : List (EntityId × Entity))
  grants := ((∅ : Grants).grant ⟨1⟩ ⟨10⟩ (.single .read)).2
  rules := RuleBook.declare ∅ "Bar" ⟨.outward, { read := .remove }⟩

def pendulum : Access Unavailable where
  view := pendulumTables.recover.view
  settings := {}

/-- The page alone. -/
def pendulumCycle : Derivations := (pendulum.derivations (.user ⟨1⟩)).componentOf ⟨10⟩

theorem holds_settle_of_wavers_pendulum :
    Wavers pendulumCycle (fun _ => ∅) ⟨10⟩ .read ∧
      (held (fun _ => ∅) (settle pendulumCycle fun _ => ∅) ⟨10⟩).holds .read = true ∧
      (pendulum.answer ∅ (.user ⟨1⟩) ⟨10⟩).map Prod.fst = .ok (.single .read) := by
  have hperiod : (round pendulumCycle fun _ => ∅).IsPeriodicPt 2 (bases pendulumCycle) := by
    show (round pendulumCycle fun _ => ∅)^[2] (bases pendulumCycle) = bases pendulumCycle
    decide +kernel
  have hwavers : Wavers pendulumCycle (fun _ => ∅) ⟨10⟩ .read :=
    @wavers_of_isPeriodicPt _ _ ⟨10⟩ .read 2 hperiod (by decide) 0 1 (by decide +kernel)
  obtain ⟨d, hd, hbase⟩ := (Option.any_eq_true _ _).mp
    (show (pendulumCycle[(⟨10⟩ : EntityId)]?).any (·.base.holds .read) = true by decide +kernel)
  have hsettle := (holds_settle_of_wavers hd hwavers).2 fun n _ => holdsAfter_add_mul hperiod 1
  exact ⟨hwavers, hsettle.trans hbase, by decide +kernel⟩

/-- Three pages, each of which passes reading on to the next one, only that the last takes it away
from the first. -/
def carouselTables : Tables where
  entities := .ofList ([
    (⟨1⟩, .node "User"), (⟨10⟩, .node "Page"), (⟨11⟩, .node "Page"), (⟨12⟩, .node "Page"),
    (⟨20⟩, .relationship "Link" ⟨10⟩ ⟨11⟩), (⟨21⟩, .relationship "Link" ⟨11⟩ ⟨12⟩),
    (⟨22⟩, .relationship "Bar" ⟨12⟩ ⟨10⟩)] : List (EntityId × Entity))
  grants := ((∅ : Grants).grant ⟨1⟩ ⟨10⟩ (.single .read)).2
  rules := (RuleBook.declare ∅ "Link" ⟨.outward, { read := .add }⟩).declare "Bar"
    ⟨.outward, { read := .remove }⟩

def carousel : Access Unavailable where
  view := carouselTables.recover.view
  settings := {}

/-- The three pages. -/
def carouselCycle : Derivations := (carousel.derivations (.user ⟨1⟩)).componentOf ⟨10⟩

/-- Reading comes back to the first page every six rounds. After the last round, and after one more,
it happens to be gone, so the page is left without what is granted on it. -/
theorem not_base_carousel : ∃ d, carouselCycle[(⟨10⟩ : EntityId)]? = some d ∧
    Wavers carouselCycle (fun _ => ∅) ⟨10⟩ .read ∧ d.base.holds .read = true ∧
    (held (fun _ => ∅) (settle carouselCycle fun _ => ∅) ⟨10⟩).holds .read ≠ d.base.holds .read ∧
    (carousel.answer ∅ (.user ⟨1⟩) ⟨10⟩).map Prod.fst = .ok ∅ := by
  have hperiod : (round carouselCycle fun _ => ∅).IsPeriodicPt 6 (bases carouselCycle) := by
    show (round carouselCycle fun _ => ∅)^[6] (bases carouselCycle) = bases carouselCycle
    decide +kernel
  have hwavers : Wavers carouselCycle (fun _ => ∅) ⟨10⟩ .read :=
    @wavers_of_isPeriodicPt _ _ ⟨10⟩ .read 6 hperiod (by decide) 0 3 (by decide +kernel)
  obtain ⟨d, hd, hbase⟩ := (Option.any_eq_true _ _).mp
    (show (carouselCycle[(⟨10⟩ : EntityId)]?).any (·.base.holds .read) = true by decide +kernel)
  have hsettle : (held (fun _ => ∅) (settle carouselCycle fun _ => ∅) ⟨10⟩).holds .read =
      false := by
    decide +kernel
  exact ⟨d, hd, hwavers, hbase, by rw [hsettle, hbase]; decide, by decide +kernel⟩

end Access
end PermissionGraph
