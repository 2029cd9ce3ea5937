import PermissionGraph.Proofs.Access.Additive
import PermissionGraph.Proofs.Access.Available

/-!
# PermissionGraph.Proofs.Access.Support

Where a kind that is held comes from. Every kind that resolution gives is derived from bases over
inputs that add it (`exists_supported`), and what a derivation goes through holds the kind, with one
exception: members of a cycle start from their bases, so a kind may come over a member that loses it
in a later round. Then the derivation goes through a member of that cycle from which the kind is
taken away (`Threatened`).

Round by round, each member holds what is derived for it (`accounted_after`). A derivation that no
member threatens is there for good, for one of two reasons (`Persists`): a cycle that stabilises
ends with what its derivations combine, and on one that oscillates what was derived once is derived
again in every later round.
-/

namespace PermissionGraph

open Std

variable {ε : Type}

/-! ## What is given and taken away -/

namespace Derivation

theorem holds_combine_iff {d : Derivation} {held : EntityId → PermissionSet} {k : Permission} :
    (d.combine held).holds k = true ↔
      (d.base.holds k = true ∨ ∃ i ∈ d.inputs, i.gives held k = true) ∧
        ∀ other rule, .propagated other rule ∈ d.inputs → rule.effect k = .remove →
          (held other).holds k = false := by
  have hremoved : (d.inputs.any fun i => (i.removed held).holds k) = false ↔
      ∀ other rule, .propagated other rule ∈ d.inputs → rule.effect k = .remove →
        (held other).holds k = false := by
    rw [List.any_eq_false]
    constructor
    · intro h other rule hi hrule
      have hnot := h _ hi
      rw [Input.removed, Rule.holds_removed, hrule] at hnot
      simpa using hnot
    · intro h i hi
      cases i with
      | propagated other rule =>
        rw [Input.removed, Rule.holds_removed, Bool.and_eq_true, beq_iff_eq]
        rintro ⟨hk, hrule⟩
        rw [h other rule hi hrule] at hk
        cases hk
      | endpoints source target => simp [Input.removed]
  rw [holds_combine, Bool.and_eq_true, Bool.or_eq_true, Bool.not_eq_true', hremoved]
  simp only [Input.holds_added, List.any_eq_true]

end Derivation

namespace Derivations

variable {D members : Derivations} {X : EntityId → PermissionSet} {k : Permission}
  {id other : EntityId}

/-! ## Derivations of a kind -/

/-- An entity is on a cycle that is still changing when the rounds of the cycle are used up. -/
def Oscillates (D : Derivations) (X : EntityId → PermissionSet) (id : EntityId) : Prop :=
  ∃ members, IsComponent D members ∧ id ∈ members ∧ ¬ Settling.Stabilises members X

/-- A kind on an entity is threatened when an input takes it away that comes from where the kind is
held or, on a cycle that oscillates, from the same cycle. -/
def Threatened (D : Derivations) (X : EntityId → PermissionSet) (k : Permission) (id : EntityId) :
    Prop :=
  ∃ (d : Derivation) (other : EntityId) (rule : Rule), D[id]? = some d ∧
    .propagated other rule ∈ d.inputs ∧ rule.effect k = .remove ∧
    ((X other).holds k = true ∨ D.Tied id other ∧ D.Oscillates X id)

/-- An entity may draw a kind from another, where it is derived through `l`: the kind is held there
or, if the two are on a cycle, threatened on the way on a member of that cycle. -/
def Passes (D : Derivations) (X : EntityId → PermissionSet) (k : Permission) (id : EntityId)
    (l : List EntityId) (other : EntityId) : Prop :=
  (X other).holds k = true ∨ D.Tied id other ∧ ∃ x ∈ l, D.Tied other x ∧ D.Threatened X k x

/-- A kind on an entity is derived from bases, through the entities of a list. -/
inductive Supported (D : Derivations) (X : EntityId → PermissionSet) (k : Permission) :
    List EntityId → EntityId → Prop where
  | base {id : EntityId} {d : Derivation} : D[id]? = some d → d.base.holds k = true →
      Supported D X k [id] id
  | propagated {id other : EntityId} {d : Derivation} {rule : Rule} {l : List EntityId} :
      D[id]? = some d → .propagated other rule ∈ d.inputs → rule.effect k = .add →
      Supported D X k l other → D.Passes X k id l other → Supported D X k (id :: l) id
  | endpoints {id source target : EntityId} {d : Derivation} {l l' : List EntityId} :
      D[id]? = some d → .endpoints source target ∈ d.inputs → k = .read →
      Supported D X k l source → D.Passes X k id l source →
      Supported D X k l' target → D.Passes X k id l' target →
      Supported D X k (id :: (l ++ l')) id

/-- A kind on an entity is derived from bases, through entities all of which hold it. Resolution
gives kinds for which there is no such derivation. -/
inductive Grounded (D : Derivations) (X : EntityId → PermissionSet) (k : Permission) :
    EntityId → Prop where
  | base {id : EntityId} {d : Derivation} : (X id).holds k = true → D[id]? = some d →
      d.base.holds k = true → Grounded D X k id
  | propagated {id other : EntityId} {d : Derivation} {rule : Rule} : (X id).holds k = true →
      D[id]? = some d → .propagated other rule ∈ d.inputs → rule.effect k = .add →
      Grounded D X k other → Grounded D X k id
  | endpoints {id source target : EntityId} {d : Derivation} : (X id).holds k = true →
      D[id]? = some d → .endpoints source target ∈ d.inputs → k = .read →
      Grounded D X k source → Grounded D X k target → Grounded D X k id

theorem Grounded.holds (h : D.Grounded X k id) : (X id).holds k = true := by
  cases h <;> assumption

theorem Supported.grounded {l : List EntityId} (h : D.Supported X k l id)
    (hsafe : ∀ x ∈ l, ¬ D.Threatened X k x) (hk : (X id).holds k = true) : D.Grounded X k id := by
  have hholds : ∀ {id other : EntityId} {l : List EntityId}, (∀ x ∈ l, ¬ D.Threatened X k x) →
      D.Passes X k id l other → (X other).holds k = true := by
    intro id other l hsafe hpass
    rcases hpass with hk | ⟨_, x, hx, _, hthr⟩
    · exact hk
    · exact absurd hthr (hsafe x hx)
  induction h with
  | base hd hbase => exact .base hk hd hbase
  | @propagated id other d rule l hd hi hrule _ hpass ih =>
    have hsafe := fun x hx => hsafe x (List.mem_cons_of_mem id hx)
    exact .propagated hk hd hi hrule (ih hsafe (hholds hsafe hpass))
  | @endpoints id source target d l l' hd hi hread _ hpass _ hpass' ih ih' =>
    have hsource := fun x hx => hsafe x (List.mem_cons_of_mem id (List.mem_append_left l' hx))
    have htarget := fun x hx => hsafe x (List.mem_cons_of_mem id (List.mem_append_right l hx))
    exact .endpoints hk hd hi hread (ih hsource (hholds hsource hpass))
      (ih' htarget (hholds htarget hpass'))

/-! ## Within a component -/

section Component

open Settling

variable {d : Derivation} {n N : Nat} {Q : Nat → EntityId → Prop}

theorem holds_combine_of_not_threatened {f : EntityId → PermissionSet} (hd : D[id]? = some d)
    (hthr : ¬ D.Threatened X k id)
    (hheld : ∀ o, (f o).holds k = true → (X o).holds k = true ∨ D.Tied id o ∧ D.Oscillates X id)
    (h : d.base.holds k = true ∨ ∃ i ∈ d.inputs, i.gives f k = true) :
    (d.combine f).holds k = true := by
  refine Derivation.holds_combine_iff.mpr ⟨h, fun other rule hi hrule => ?_⟩
  by_contra hk
  rw [Bool.not_eq_false] at hk
  exact hthr ⟨d, other, rule, hd, hi, hrule, hheld other hk⟩

/-- On a cycle that oscillates, what is given in a round stays where it is not threatened. -/
theorem holds_after_succ (hc : IsComponent D members) (hunstable : ¬ Stabilises members X)
    (hd : members[id]? = some d) (hthr : ¬ D.Threatened X k id)
    (h : d.base.holds k = true ∨ ∃ i ∈ d.inputs, i.gives (held X (after members X n)) k = true) :
    (held X (after members X (n + 1)) id).holds k = true := by
  have hin := mem_of_getElem? hd
  rw [after_succ, held_round hd]
  refine holds_combine_of_not_threatened (hc.agree hd) hthr (fun o hk => ?_) h
  by_cases ho : o ∈ members
  · exact .inr ⟨(hc.mem_iff hin o).mp ho, members, hc, hin, hunstable⟩
  · rw [held_of_notMem over_after ho] at hk
    exact .inl hk

/-- Nothing on a way through the component of an entity is threatened. -/
def Safe (D : Derivations) (X : EntityId → PermissionSet) (k : Permission) (id : EntityId)
    (l : List EntityId) : Prop :=
  ∀ x ∈ l, D.Tied id x → ¬ D.Threatened X k x

/-- A reason `Q n` for which a member holds a kind in the end: members that are not threatened have
it from their bases, or a round after all that they draw the kind from. -/
structure Persists (D members : Derivations) (X : EntityId → PermissionSet) (k : Permission)
    (N : Nat) (Q : Nat → EntityId → Prop) : Prop where
  base : ∀ {n : Nat} {id : EntityId} {d : Derivation}, members[id]? = some d →
    ¬ D.Threatened X k id → d.base.holds k = true → Q n id
  gives : ∀ {n : Nat} {id : EntityId} {d : Derivation} {i : Input}, members[id]? = some d →
    ¬ D.Threatened X k id → i ∈ d.inputs → i.gives (held X (after members X n)) k = true →
    (∀ o ∈ i.origins, Q n o) → Q (n + 1) id
  outside : ∀ {n : Nat} {id : EntityId}, id ∉ members → (X id).holds k = true → Q n id
  final : ∀ {n : Nat} {id : EntityId}, n ≤ N → id ∈ members → Q n id → (X id).holds k = true

theorem persists_of_eq_combine (hc : IsComponent D members)
    (h : ∀ {id : EntityId} {d : Derivation}, members[id]? = some d → X id = d.combine X) :
    Persists D members X k N fun _ id => (X id).holds k = true := by
  have hcombine : ∀ {id : EntityId} {d : Derivation}, members[id]? = some d →
      ¬ D.Threatened X k id → (d.base.holds k = true ∨ ∃ i ∈ d.inputs, i.gives X k = true) →
      (X id).holds k = true := by
    intro id d hd hthr hgiven
    rw [h hd]
    exact holds_combine_of_not_threatened (hc.agree hd) hthr (fun _ => .inl) hgiven
  constructor
  case base =>
    intro n id d hd hthr hbase
    exact hcombine hd hthr (.inl hbase)
  case gives =>
    intro n id d i hd hthr hi hgives horigins
    exact hcombine hd hthr (.inr ⟨i, hi, Input.gives_of_imp (fun o ho _ => horigins o ho) hgives⟩)
  case outside => exact fun _ hk => hk
  case final => exact fun _ _ hk => hk

theorem persists_of_not_stabilises (hc : IsComponent D members) (hunstable : ¬ Stabilises members X)
    (hfinal : ∀ {id : EntityId}, id ∈ members →
      (held X (after members X N) id).holds k = true →
      (held X (after members X (N + 1)) id).holds k = true → (X id).holds k = true) :
    Persists D members X k N fun n id =>
      ∀ t ≥ n, (held X (after members X t) id).holds k = true := by
  constructor
  case base =>
    intro n id d hd hthr hbase t _
    cases t with
    | zero => rwa [after, Function.iterate_zero, id_eq, held_bases hd]
    | succ t => exact holds_after_succ hc hunstable hd hthr (.inl hbase)
  case gives =>
    intro n id d i hd hthr hi hgives horigins t ht
    obtain ⟨t, rfl⟩ := Nat.exists_eq_add_of_lt ht
    refine holds_after_succ hc hunstable hd hthr (.inr ⟨i, hi, ?_⟩)
    exact Input.gives_of_imp (fun o ho _ => horigins o ho (n + t) (by omega)) hgives
  case outside =>
    intro n id hid hk t _
    rwa [held_of_notMem over_after hid]
  case final =>
    intro n id hn hin hk
    exact hfinal hin (hk N hn) (hk (N + 1) (by omega))

/-- A kind is derived on an entity and, where nothing on the way is threatened, `Q` is a reason for
it. -/
def Accounted (D : Derivations) (X : EntityId → PermissionSet) (k : Permission)
    (Q : EntityId → Prop) (id : EntityId) : Prop :=
  ∃ l, D.Supported X k l id ∧ (D.Safe X k id l → Q id)

theorem accounted_of_base (hc : IsComponent D members) (hQ : Persists D members X k N Q)
    (hd : members[id]? = some d) (h : d.base.holds k = true) : Accounted D X k (Q n) id := by
  refine ⟨[id], .base (hc.agree hd) h, fun hsafe => ?_⟩
  exact hQ.base hd (hsafe id (List.mem_singleton_self id) .refl) h

theorem exists_passes (hc : IsComponent D members) (hQ : Persists D members X k N Q)
    (hn : n ≤ N) (hid : id ∈ members)
    (h : other ∈ members ∧ Accounted D X k (Q n) other ∨
      other ∉ members ∧ (X other).holds k = true ∧ ∃ l, D.Supported X k l other) :
    ∃ l, D.Supported X k l other ∧ D.Passes X k id l other ∧ (D.Safe X k id l → Q n other) := by
  rcases h with ⟨hother, l, hl, hsafe⟩ | ⟨hother, hk, l, hl⟩
  · have ht := (hc.mem_iff hid other).mp hother
    have hmove : D.Safe X k id l → D.Safe X k other l := fun hs x hx htx => hs x hx (ht.trans htx)
    refine ⟨l, hl, ?_, fun hs => hsafe (hmove hs)⟩
    by_cases hs : D.Safe X k other l
    · exact .inl (hQ.final hn hother (hsafe hs))
    · simp only [Safe, not_forall, not_not] at hs
      obtain ⟨x, hx, htx, hthr⟩ := hs
      exact .inr ⟨ht, x, hx, htx, hthr⟩
  · exact ⟨l, hl, .inl hk, fun _ => hQ.outside hother hk⟩

theorem accounted_of_gives (hc : IsComponent D members) (hQ : Persists D members X k N Q)
    (hd : members[id]? = some d) {i : Input} (hi : i ∈ d.inputs)
    (hgives : i.gives (held X (after members X n)) k = true)
    (h : ∀ o ∈ i.origins,
      ∃ l, D.Supported X k l o ∧ D.Passes X k id l o ∧ (D.Safe X k id l → Q n o)) :
    Accounted D X k (Q (n + 1)) id := by
  have hd' := hc.agree hd
  cases i with
  | propagated other rule =>
    obtain ⟨l, hl, hpass, hsafe⟩ := h other (List.mem_singleton_self other)
    have hrule : rule.effect k = .add := by
      rw [Input.gives, Bool.and_eq_true, beq_iff_eq] at hgives
      exact hgives.1
    refine ⟨id :: l, .propagated hd' hi hrule hl hpass, fun hs => ?_⟩
    refine hQ.gives hd (hs id List.mem_cons_self .refl) hi hgives fun o ho => ?_
    rw [Input.origins, List.mem_singleton] at ho
    rw [ho]
    exact hsafe fun x hx => hs x (List.mem_cons_of_mem id hx)
  | endpoints source target =>
    obtain ⟨l, hl, hpass, hsafe⟩ := h source List.mem_cons_self
    obtain ⟨l', hl', hpass', hsafe'⟩ := h target (List.mem_cons_of_mem _ List.mem_cons_self)
    have hread : k = .read := by
      rw [Input.gives, Bool.and_eq_true, beq_iff_eq] at hgives
      exact hgives.1
    refine ⟨id :: (l ++ l'), .endpoints hd' hi hread hl hpass hl' hpass', fun hs => ?_⟩
    refine hQ.gives hd (hs id List.mem_cons_self .refl) hi hgives fun o ho => ?_
    rw [Input.origins, List.mem_pair] at ho
    rcases ho with rfl | rfl
    · exact hsafe fun x hx => hs x (List.mem_cons_of_mem id (List.mem_append_left l' hx))
    · exact hsafe' fun x hx => hs x (List.mem_cons_of_mem id (List.mem_append_right l hx))

/-- What the members hold after some rounds is accounted for, if what is held outside is. -/
theorem accounted_after (hc : IsComponent D members) (hQ : Persists D members X k N Q)
    (hout : ∀ m ∈ members, ∀ o, D.Draws m o → o ∉ members → (X o).holds k = true →
      ∃ l, D.Supported X k l o)
    (hn : n ≤ N) (hid : id ∈ members) (hk : (held X (after members X n) id).holds k = true) :
    Accounted D X k (Q n) id := by
  induction n generalizing id with
  | zero =>
    obtain ⟨d, hd⟩ := mem_iff_getElem?.mp hid
    rw [after, Function.iterate_zero, id_eq, held_bases hd] at hk
    exact accounted_of_base hc hQ hd hk
  | succ n ih =>
    obtain ⟨d, hd⟩ := mem_iff_getElem?.mp hid
    rw [after_succ, held_round hd, Derivation.holds_combine_iff] at hk
    obtain ⟨hbase | ⟨i, hi, hgives⟩, _⟩ := hk
    · exact accounted_of_base hc hQ hd hbase
    · have hn' : n ≤ N := by omega
      refine accounted_of_gives hc hQ hd hi hgives fun o ho => ?_
      have hko := Input.holds_of_gives hgives o ho
      refine exists_passes hc hQ hn' hid ?_
      by_cases hom : o ∈ members
      · exact .inl ⟨hom, ih hn' hom hko⟩
      · rw [held_of_notMem over_after hom] at hko
        have hdraws : D.Draws id o := ⟨d, hc.agree hd, Derivation.mem_origins.mpr ⟨i, hi, ho⟩⟩
        exact .inr ⟨hom, hko, hout id hid o hdraws hom hko⟩

end Component

theorem exists_supported (h : D.IsComplete id) (hk : (D.entries.permissions id).holds k = true) :
    ∃ l, D.Supported D.entries.permissions k l id := by
  refine IsComplete.induction
    (P := fun x => (D.entries.permissions x).holds k = true →
      ∃ l, D.Supported D.entries.permissions k l x) ?_ h hk
  intro members hc hall hout m hm hk
  obtain ⟨N, hN⟩ := Settling.exists_holds_settle members D.entries.permissions
  rw [held_settle hc hall] at hN
  obtain ⟨Q, hQ⟩ : ∃ Q, Persists D members D.entries.permissions k N Q := by
    by_cases hstable : Settling.Stabilises members D.entries.permissions
    · exact ⟨_, persists_of_eq_combine hc fun hd =>
        permissions_entries_eq_combine hc hall (mem_of_getElem? hd) hstable (hc.agree hd)⟩
    · refine ⟨_, persists_of_not_stabilises hc hstable fun {x} hx hlast hnext => ?_⟩
      obtain ⟨y, hy⟩ := mem_iff_getElem?.mp hx
      rw [hN x y k hy, hlast, hnext, if_pos rfl]
  obtain ⟨d, hd⟩ := mem_iff_getElem?.mp hm
  rw [hN m d k hd] at hk
  split at hk
  · obtain ⟨l, hl, _⟩ := accounted_after hc hQ hout (Nat.le_refl N) hm hk
    exact ⟨l, hl⟩
  · exact ⟨[m], .base (hc.agree hd) hk⟩

end Derivations

namespace Access

variable {a : Access ε} {principal : Principal} {root : EntityId}

/-- When look-ups succeed and the principal is not exempt from checks, every kind that resolution
gives on an entity is derived from bases, through entities that hold it or, on a cycle, through a
member on which it is threatened. -/
theorem answer_supported (hview : a.view.Available)
    (hexists : ∀ id, (a.derivations principal).Reaches root id →
      ∃ e, a.view.entity? id = .ok (some e))
    (hsuper : a.isSuperuser principal = .ok false) :
    ∃ X : EntityId → PermissionSet,
      (∀ id, (a.derivations principal).Reaches root id →
        (a.answer ∅ principal id).map Prod.fst = .ok (X id)) ∧
      ∀ k, (X root).holds k = true → ∃ l, (a.derivations principal).Supported X k l root := by
  have hcomplete := isComplete_of_exists hview hexists
  refine ⟨(a.derivations principal).entries.permissions, fun id hr => ?_, fun k hk => ?_⟩
  · obtain ⟨e, he⟩ := Derivations.exists_entries (hcomplete.of_reaches hr)
    rw [answer_of_entries hsuper a.trusts_empty he, Entries.permissions, he]
  · exact Derivations.exists_supported hcomplete hk

/-- Two entities that pass reading on to each other, one of them also to itself. The other has its
base taken away by a third. -/
def echoTables : Tables where
  entities := .ofList ([
    (⟨1⟩, .node "User"), (⟨10⟩, .node "Page"), (⟨11⟩, .node "Page"), (⟨12⟩, .node "Page"),
    (⟨20⟩, .relationship "Link" ⟨10⟩ ⟨12⟩), (⟨21⟩, .relationship "Link" ⟨12⟩ ⟨10⟩),
    (⟨22⟩, .relationship "Link" ⟨12⟩ ⟨12⟩), (⟨23⟩, .relationship "Bar" ⟨11⟩ ⟨10⟩)] :
    List (EntityId × Entity))
  grants := (((∅ : Grants).grant ⟨1⟩ ⟨10⟩ (.single .read)).2.grant ⟨1⟩ ⟨11⟩ (.single .read)).2
  rules := (RuleBook.declare ∅ "Link" ⟨.outward, { read := .add }⟩).declare "Bar"
    ⟨.outward, { read := .remove }⟩

def echo : Access Unavailable where
  view := echoTables.recover.view
  settings := {}

theorem exists_of_reaches_echo {id : EntityId}
    (hr : (echo.derivations (.user ⟨1⟩)).Reaches ⟨12⟩ id) :
    ∃ e, echo.view.entity? id = .ok (some e) :=
  exists_of_reaches (Tables.closed_recover (by decide +kernel)) ⟨.node "Page", by decide +kernel⟩ hr

theorem answer_supported_echo : ∃ X : EntityId → PermissionSet,
    (echo.answer ∅ (.user ⟨1⟩) ⟨12⟩).map Prod.fst = .ok (X ⟨12⟩) ∧ X ⟨12⟩ = .single .read ∧
      ∃ l, (echo.derivations (.user ⟨1⟩)).Supported X .read l ⟨12⟩ := by
  obtain ⟨X, hX, hsupported⟩ := @answer_supported _ echo (.user ⟨1⟩) ⟨12⟩
    echoTables.available_recover (fun _ => exists_of_reaches_echo) (by decide +kernel)
  have hroot := hX ⟨12⟩ .refl
  have hread : (echo.answer ∅ (.user ⟨1⟩) ⟨12⟩).map Prod.fst = .ok (.single .read) := by
    decide +kernel
  rw [hroot] at hread
  injection hread with hread
  exact ⟨X, hroot, hread, hsupported .read (by rw [hread]; decide)⟩

theorem not_grounded_echo : echo.view.Available ∧
    (∀ id, (echo.derivations (.user ⟨1⟩)).Reaches ⟨12⟩ id →
      ∃ e, echo.view.entity? id = .ok (some e)) ∧
    echo.isSuperuser (.user ⟨1⟩) = .ok false ∧
    ¬ ∃ X : EntityId → PermissionSet,
      (∀ id, (echo.derivations (.user ⟨1⟩)).Reaches ⟨12⟩ id →
        (echo.answer ∅ (.user ⟨1⟩) id).map Prod.fst = .ok (X id)) ∧
      ∀ k, (X ⟨12⟩).holds k = true → (echo.derivations (.user ⟨1⟩)).Grounded X k ⟨12⟩ := by
  refine ⟨echoTables.available_recover, fun _ => exists_of_reaches_echo, by decide +kernel, ?_⟩
  rintro ⟨X, hX, hgrounded⟩
  have hdraws : (⟨10⟩ : EntityId) ∈ (echo.derivations (.user ⟨1⟩)).next ⟨12⟩ := by decide +kernel
  have hX₁₀ := hX ⟨10⟩ (Derivations.mem_next_iff.mp hdraws).1.reaches
  have hX₁₂ := hX ⟨12⟩ .refl
  have hanswers : (echo.answer ∅ (.user ⟨1⟩) ⟨10⟩).map Prod.fst = .ok ∅ ∧
      (echo.answer ∅ (.user ⟨1⟩) ⟨12⟩).map Prod.fst = .ok (.single .read) := by
    decide +kernel
  rw [hX₁₀, hX₁₂, Except.ok.injEq, Except.ok.injEq] at hanswers
  have hget : ((echo.derivations (.user ⟨1⟩))[(⟨12⟩ : EntityId)]?).map
      (fun d => (d.base, d.inputs)) = some (∅,
        [.propagated ⟨10⟩ ⟨.outward, { read := .add }⟩,
          .propagated ⟨12⟩ ⟨.outward, { read := .add }⟩]) := by
    decide +kernel
  -- the entity draws reading from one that does not hold it, and from itself
  have hnone : ∀ id, (echo.derivations (.user ⟨1⟩)).Grounded X .read id → id ≠ ⟨12⟩ := by
    intro id h
    induction h with
    | base _ hd hbase =>
      rintro rfl
      rw [hd, Option.map_some, Option.some_inj, Prod.mk.injEq] at hget
      rw [hget.1] at hbase
      cases hbase
    | propagated _ hd hi _ hother ih =>
      rintro rfl
      rw [hd, Option.map_some, Option.some_inj, Prod.mk.injEq] at hget
      rw [hget.2, List.mem_pair, Input.propagated.injEq, Input.propagated.injEq] at hi
      rcases hi with ⟨rfl, _⟩ | ⟨rfl, _⟩
      · have hholds := hother.holds
        rw [hanswers.1] at hholds
        cases hholds
      · exact ih rfl
    | endpoints _ hd hi _ _ _ _ _ =>
      rintro rfl
      rw [hd, Option.map_some, Option.some_inj, Prod.mk.injEq] at hget
      rw [hget.2] at hi
      simp at hi
  exact hnone ⟨12⟩ (hgrounded .read (by rw [hanswers.2]; decide)) rfl

/-- A cycle of five on which reading comes and goes, one member passing it on to itself. -/
def flickerTables : Tables where
  entities := .ofList ([
    (⟨1⟩, .node "User"), (⟨10⟩, .node "Page"), (⟨11⟩, .node "Page"), (⟨12⟩, .node "Page"),
    (⟨13⟩, .node "Page"), (⟨14⟩, .node "Page"), (⟨20⟩, .relationship "Link" ⟨10⟩ ⟨11⟩),
    (⟨21⟩, .relationship "Bar" ⟨11⟩ ⟨10⟩), (⟨22⟩, .relationship "Bar" ⟨11⟩ ⟨12⟩),
    (⟨23⟩, .relationship "Link" ⟨12⟩ ⟨13⟩), (⟨24⟩, .relationship "Link" ⟨13⟩ ⟨13⟩),
    (⟨25⟩, .relationship "Tie" ⟨13⟩ ⟨14⟩), (⟨26⟩, .relationship "Tie" ⟨14⟩ ⟨10⟩)] :
    List (EntityId × Entity))
  grants := (((∅ : Grants).grant ⟨1⟩ ⟨10⟩ (.single .read)).2.grant ⟨1⟩ ⟨12⟩ (.single .read)).2
  rules := ((RuleBook.declare ∅ "Link" ⟨.outward, { read := .add }⟩).declare "Bar"
    ⟨.outward, { read := .remove }⟩).declare "Tie" ⟨.outward, { write := .add }⟩

def flicker : Access Unavailable where
  view := flickerTables.recover.view
  settings := {}

-- one member is left with reading, and what took reading away from the others does not hold it
example : ([⟨10⟩, ⟨11⟩, ⟨12⟩, ⟨13⟩, ⟨14⟩] : List EntityId).map
    (fun id => (flicker.answer ∅ (.user ⟨1⟩) id).map Prod.fst) =
      [.ok ∅, .ok ∅, .ok ∅, .ok (.single .read), .ok ∅] := by
  decide +kernel

end Access
end PermissionGraph
