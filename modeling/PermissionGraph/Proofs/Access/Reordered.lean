import Mathlib.Data.List.Forall2
import Mathlib.Data.Prod.Lex
import PermissionGraph.Proofs.Access.Rearranged
import PermissionGraph.Proofs.Access.Sequence

/-!
# PermissionGraph.Proofs.Access.Reordered

The order in which a graph lists relationships does not matter. Two graphs that differ in nothing
else (`GraphView.Reordered`) answer any questions alike over any memo, errors included, and leave
the same memo (`inTurn_of_reordered`).

Relationships are sorted before anything is made of them, but two sightings of one relationship
can tie: the two ends of a relationship from an entity to itself. What is read off them is then the
same but for the order of what ties, and the entities that are drawn on come in the same order
(`map_other_eq`), so the walks through both graphs go the same way, step by step.
-/

namespace PermissionGraph

open Std Derivations

variable {ε α β γ δ : Type}

/-! ## Outcomes -/

/-- Two look-ups fail alike, or give what `R` relates. -/
inductive SameOutcome (R : α → β → Prop) : Except ε α → Except ε β → Prop
  | ok {a : α} {b : β} (h : R a b) : SameOutcome R (.ok a) (.ok b)
  | error (cause : ε) : SameOutcome R (.error cause) (.error cause)

namespace SameOutcome

variable {R : α → β → Prop} {S : γ → δ → Prop} {r : Except ε α} {r' : Except ε β}

theorem bind {f : α → Except ε γ} {g : β → Except ε δ} (h : SameOutcome R r r')
    (hfg : ∀ a b, R a b → SameOutcome S (f a) (g b)) : SameOutcome S (r >>= f) (r' >>= g) := by
  cases h with
  | ok h => exact hfg _ _ h
  | error cause => exact .error cause

/-- Look-ups in a row. -/
theorem mapM {f : γ → Except ε α} {g : γ → Except ε β} (h : ∀ c, SameOutcome R (f c) (g c))
    (l : List γ) : SameOutcome (List.Forall₂ R) (l.mapM f) (l.mapM g) := by
  induction l with
  | nil => exact .ok .nil
  | cons c l ih =>
    rw [List.mapM_cons, List.mapM_cons]
    exact (h c).bind fun a b hab => ih.bind fun as bs hrest => .ok (.cons hab hrest)

theorem eq {r r' : Except ε α} (h : SameOutcome Eq r r') : r = r' := by
  cases h with
  | ok h => rw [h]
  | error cause => rfl

end SameOutcome

/-- Two graphs that differ in nothing but the order in which they list relationships. -/
structure GraphView.Reordered (view' view : GraphView ε) : Prop where
  entity : ∀ id, view'.entity? id = view.entity? id
  granted : ∀ principal id, view'.granted principal id = view.granted principal id
  rules : view'.rules = view.rules
  incidents : ∀ id, SameOutcome List.Perm (view'.incidents id) (view.incidents id)

/-- Listing incidents in descending order is listing them in another order. -/
theorem Tables.reordered_reverse (t : Tables) (isReversed : Bool) :
    ({ t with isReversed } : Tables).view.Reordered t.view where
  entity _ := rfl
  granted _ _ := rfl
  rules := rfl
  incidents id := by
    have hscan : ∀ b : Bool, (if b then (scan t.entities id).reverse else scan t.entities id).Perm
        (scan t.entities id) := by
      intro b
      cases b with
      | false => exact .refl _
      | true => exact List.reverse_perm _
    by_cases hfails : id ∈ t.incidentsFail
    · simp only [view, if_pos hfails]
      exact .error _
    · simp only [view, if_neg hfails]
      exact .ok ((hscan isReversed).trans (hscan t.isReversed).symm)

/-! ## Sorting -/

namespace Incident

/-- Where an incident stands when incidents are sorted. -/
def place (i : Incident) : ℕ ×ₗ ℕ := toLex (i.relationship.number, i.other.number)

theorem ble_iff {i j : Incident} : ble i j = true ↔ i.place ≤ j.place := by
  obtain ⟨⟨r⟩, _, _, ⟨x⟩⟩ := i
  obtain ⟨⟨s⟩, _, _, ⟨y⟩⟩ := j
  rw [ble, place, place, Prod.Lex.le_iff]
  simp [EntityId.ble]

theorem pairwise_place (l : List Incident) :
    (sortBy ble l).Pairwise fun i j => i.place ≤ j.place := by
  have htrans : ∀ i j k, ble i j = true → ble j k = true → ble i k = true :=
    fun i j k hij hjk => ble_iff.mpr ((ble_iff.mp hij).trans (ble_iff.mp hjk))
  have htotal : ∀ i j, ble i j = true ∨ ble j i = true :=
    fun i j => (le_total i.place j.place).imp ble_iff.mpr ble_iff.mpr
  exact (pairwise_sortBy htrans htotal l).imp ble_iff.mp

/-- Sorted incidents that are the same but for their order have the same other ends one after
another. -/
theorem map_other_eq {l l' : List Incident} (h : l'.Perm l)
    (hl : l.Pairwise fun i j => i.place ≤ j.place)
    (hl' : l'.Pairwise fun i j => i.place ≤ j.place) :
    l'.map Incident.other = l.map Incident.other := by
  have hplaces : l'.map place = l.map place :=
    (h.map place).eq_of_pairwise (fun _ _ _ _ hab hba => hab.antisymm hba)
      (List.pairwise_map.mpr hl') (List.pairwise_map.mpr hl)
  have hother : ∀ l : List Incident, l.map Incident.other =
      (l.map place).map fun p => ⟨(ofLex p).2⟩ := by
    intro l
    rw [List.map_map]
    rfl
  rw [hother, hother, hplaces]

end Incident

/-! ## Groups -/

namespace Membership

variable {view view' : GraphView ε} {members members' : List Member}

/-- The same hops, to the same groups one after another. -/
structure SameHops (hops' hops : List Hop) : Prop where
  groups : hops'.map Hop.group = hops.map Hop.group
  mem : ∀ hop, hop ∈ hops' ↔ hop ∈ hops

/-- The same member, with the same hops. -/
structure SameMember (m' m : Member) : Prop where
  id : m'.id = m.id
  hops : SameHops m'.hops m.hops

theorem SameHops.filter {hops hops' : List Hop} (h : SameHops hops' hops) (p : EntityId → Bool) :
    SameHops (hops'.filter fun hop => p hop.group) (hops.filter fun hop => p hop.group) where
  groups := by
    have hfilter : ∀ l : List Hop,
        (l.filter fun hop => p hop.group).map Hop.group = (l.map Hop.group).filter p :=
      fun l => List.filter_map.symm
    rw [hfilter, hfilter, h.groups]
  mem hop := by rw [List.mem_filter, List.mem_filter, h.mem]

theorem nextLevel_eq (h : List.Forall₂ SameMember members' members) :
    nextLevel members' = nextLevel members := by
  have hgroups : (members'.flatMap fun m => m.hops.map Hop.group) =
      members.flatMap fun m => m.hops.map Hop.group := by
    induction h with
    | nil => rfl
    | cons hm _ ih => rw [List.flatMap_cons, List.flatMap_cons, hm.hops.groups, ih]
  rw [nextLevel, nextLevel, hgroups]

theorem combine_of_sameHops {hops hops' : List Hop} (h : SameHops hops' hops)
    (granted : PermissionSet) (held : EntityId → PermissionSet) :
    combine granted hops' held = combine granted hops held := by
  rw [combine, combine, PermissionSet.sum_map_congr h.mem, PermissionSet.sum_map_congr h.mem]

section Reordered

variable (settings : Settings) (h : view'.Reordered view)
include h

theorem sameHops (x : EntityId) :
    SameOutcome SameHops (hops view' settings x) (hops view settings x) := by
  rw [hops, hops, h.rules]
  refine (h.incidents x).bind fun l' l hperm => .ok ?_
  generalize (fun i : Incident => i.relationshipType.name == settings.membershipName &&
    admits view.rules i) = p
  have hsorted := ((sortBy_perm Incident.ble (l'.filter p)).trans (hperm.filter p)).trans
    (sortBy_perm Incident.ble (l.filter p)).symm
  constructor
  · rw [List.map_map, List.map_map]
    exact Incident.map_other_eq hsorted (Incident.pairwise_place _) (Incident.pairwise_place _)
  · exact fun hop => (hsorted.map _).mem_iff

theorem sameMember_deeper (known : EntitySet) (x : EntityId) :
    SameOutcome SameMember (deeper view' settings known x) (deeper view settings known x) :=
  (sameHops settings h x).bind fun _ _ hhops => .ok ⟨rfl, hhops.filter fun group => group ∉ known⟩

theorem sameMember_deepest (x : EntityId) :
    SameOutcome SameMember (deepest view' settings x) (deepest view settings x) :=
  (sameHops settings h x).bind fun _ _ _ => .ok ⟨rfl, rfl, fun _ => Iff.rfl⟩

theorem sameMembers_levels (depth : Nat) (known : EntitySet) (level : List EntityId) :
    SameOutcome (List.Forall₂ SameMember) (levels view' settings depth known level)
      (levels view settings depth known level) := by
  induction depth generalizing known level with
  | zero =>
    cases level with
    | nil => exact .ok .nil
    | cons x level => exact .mapM (sameMember_deepest settings h) (x :: level)
  | succ depth ih =>
    cases level with
    | nil => exact .ok .nil
    | cons x level =>
      simp only [levels]
      have hlevel := SameOutcome.mapM (sameMember_deeper settings h known) (x :: level)
      refine hlevel.bind fun l' l hl => ?_
      rw [nextLevel_eq hl]
      exact (ih _ _).bind fun rest' rest hrest => .ok (List.rel_append hl hrest)

theorem sameMembers_closure (user : EntityId) :
    SameOutcome (List.Forall₂ SameMember) (closure view' settings user)
      (closure view settings user) :=
  (sameMembers_levels settings h _ _ _).bind fun _ _ hl => .ok (List.rel_reverse hl)

/-- What is inherited is the same, and so is the first grant that can not be looked up. -/
theorem inherited_eq (hm : List.Forall₂ SameMember members' members) (user id : EntityId) :
    inherited view' members' user id = inherited view members user id := by
  have hevaluate : ∀ held, evaluate view' id members' held = evaluate view id members held := by
    induction hm with
    | nil => exact fun _ => rfl
    | cons hm _ ih =>
      intro held
      rw [evaluate, evaluate, hm.id, h.granted]
      simp only [combine_of_sameHops hm.hops, ih]
  rw [inherited, inherited, hevaluate]

end Reordered
end Membership

/-! ## Derivations -/

namespace Derivation

variable {view view' : GraphView ε} {members members' : List Member}

theorem origins_propagatedInputs (rules : RuleBook) (l : List Incident) :
    (propagatedInputs rules l).flatMap Input.origins =
      ((sortBy Incident.ble l).filter (Membership.admits rules)).map Incident.other := by
  rw [propagatedInputs, List.flatMap_map]
  exact List.map_eq_flatMap.symm

section Reordered

variable (settings : Settings) (h : view'.Reordered view)
  (hm : List.Forall₂ Membership.SameMember members' members)
include h hm

theorem baseOf_eq (principal : Principal) (id : EntityId) (e : Entity) :
    baseOf view' members' principal id e = baseOf view members principal id e := by
  have hconsulted : ∀ s : EntitySet, members'.foldl (fun s m => s.insert m.id) s =
      members.foldl (fun s m => s.insert m.id) s := by
    induction hm with
    | nil => exact fun _ => rfl
    | cons hm _ ih =>
      intro s
      rw [List.foldl_cons, List.foldl_cons, hm.id, ih]
  cases principal with
  | superuser => rfl
  | anonymous => rfl
  | user user =>
    by_cases ho : e.owner = some user
    · rw [baseOf_of_owner ho, baseOf_of_owner ho]
    · rw [baseOf_of_not_owner ho, baseOf_of_not_owner ho, Membership.inherited_eq h hm, hconsulted]

theorem rearranges_of (principal : Principal) (id : EntityId) (e : Entity) :
    SameOutcome Rearranges (Derivation.of view' settings members' principal id e)
      (Derivation.of view settings members principal id e) := by
  rw [Derivation.of, Derivation.of, baseOf_eq h hm, h.rules]
  cases baseOf view members principal id e with
  | error cause => exact .error cause
  | ok s =>
    refine (h.incidents id).bind fun l' l hperm => .ok ⟨rfl, rfl, ?_, fun i => ?_⟩
    · have hsorted := ((sortBy_perm Incident.ble l').trans hperm).trans
        (sortBy_perm Incident.ble l).symm
      rw [origins, origins, List.flatMap_append, List.flatMap_append, origins_propagatedInputs,
        origins_propagatedInputs, Incident.map_other_eq (hsorted.filter _)
          ((Incident.pairwise_place l).filter _) ((Incident.pairwise_place l').filter _)]
    · simp only [List.mem_append, mem_propagatedInputs, hperm.mem_iff]

theorem rearranges_derive (principal : Principal) (id : EntityId) :
    SameOutcome Rearranges (Discovery.derive view' settings members' principal id)
      (Discovery.derive view settings members principal id) := by
  rw [Discovery.derive, Discovery.derive, h.entity]
  cases view.entity? id with
  | error cause => exact .error _
  | ok found =>
    cases found with
    | none => exact .error _
    | some e =>
      have hof := rearranges_of settings h hm principal id e
      dsimp only
      generalize Derivation.of view' settings members' principal id e = r' at hof ⊢
      generalize Derivation.of view settings members principal id e = r at hof ⊢
      cases hof with
      | ok hd => exact .ok hd
      | error cause => exact .error _

end Reordered
end Derivation

/-! ## Walks -/

namespace Discovery

variable {recalled : EntityId → Option MemoEntry}
  {derive derive' : EntityId → Except (AccessError ε) Derivation} {stack : List EntityId}
  {d d' : Discovery} {r r' : Except (AccessError ε) Discovery}

theorem Rearranges.contains_eq (h : d'.Rearranges d) (id : EntityId) :
    d'.contains id = d.contains id := by
  rw [Bool.eq_iff_iff, contains_iff, contains_iff, h.remembered, h.derivations.mem_iff]

theorem Rearranges.noteRemembered (h : d'.Rearranges d) (id : EntityId) (e : MemoEntry) :
    (d'.noteRemembered id e).Rearranges (d.noteRemembered id e) where
  derivations := h.derivations
  remembered := by rw [Discovery.noteRemembered, Discovery.noteRemembered, h.remembered]

theorem Rearranges.noteDerived {x x' : Derivation} (h : d'.Rearranges d) (id : EntityId)
    (hx : x'.Rearranges x) : (d'.noteDerived id x').Rearranges (d.noteDerived id x) where
  derivations := h.derivations.insert hx id
  remembered := h.remembered

/-- Two walks from one stack go the same way and end alike. -/
theorem Walks.rearranges
    (hderive : ∀ id, SameOutcome Derivation.Rearranges (derive' id) (derive id))
    (hw : Walks recalled derive stack d r) (hw' : Walks recalled derive' stack d' r')
    (hd : d'.Rearranges d) : SameOutcome Rearranges r' r := by
  induction hw generalizing d' with
  | done =>
    cases hw'
    exact .ok hd
  | @skip id _ _ _ hc _ ih =>
    rw [← hd.contains_eq id] at hc
    cases hw' with
    | skip _ hw' => exact ih hw' hd
    | remember hnew | fail hnew | read hnew => simp [hc] at hnew
  | @remember id _ _ e _ hc he _ ih =>
    rw [← hd.contains_eq id] at hc
    cases hw' with
    | skip hc' => simp [hc] at hc'
    | remember _ he' hw' =>
      obtain rfl := Option.some_inj.mp (he.symm.trans he')
      exact ih hw' (hd.noteRemembered id e)
    | fail _ hnone | read _ hnone => simp [he] at hnone
  | @fail id _ _ cause hc hnone hx =>
    rw [← hd.contains_eq id] at hc
    have hsame := hderive id
    rw [hx] at hsame
    cases hw' with
    | skip hc' => simp [hc] at hc'
    | remember _ he' => simp [hnone] at he'
    | fail _ _ hx' =>
      rw [hx'] at hsame
      cases hsame
      exact .error cause
    | read _ _ hx' =>
      rw [hx'] at hsame
      cases hsame
  | @read id _ _ x _ hc hnone hx _ ih =>
    rw [← hd.contains_eq id] at hc
    have hsame := hderive id
    rw [hx] at hsame
    cases hw' with
    | skip hc' => simp [hc] at hc'
    | remember _ he' => simp [hnone] at he'
    | fail _ _ hx' =>
      rw [hx'] at hsame
      cases hsame
    | read _ _ hx' hw' =>
      rw [hx'] at hsame
      cases hsame with
      | ok hsame =>
        rw [hsame.origins] at hw'
        exact ih hw' (hd.noteDerived id hsame)

end Discovery

/-! ## Questions -/

namespace Access

variable {a a' : Access ε} {memo : LocalMemo} {principal : Principal}

/-- Two graphs that differ in nothing but the order of relationships, with the same settings and the
same shared memo. -/
structure Reordered (a' a : Access ε) : Prop where
  view : a'.view.Reordered a.view
  settings : a'.settings = a.settings
  shared : a'.shared = a.shared

section Reordered

variable (h : a'.Reordered a)
include h

theorem entity_of_reordered (id : EntityId) : a'.entity id = a.entity id := by
  rw [entity, entity, h.view.entity]

theorem isSuperuser_of_reordered (principal : Principal) :
    a'.isSuperuser principal = a.isSuperuser principal := by
  cases principal with
  | superuser => rfl
  | anonymous => rfl
  | user user => rw [isSuperuser, isSuperuser, h.settings, entity_of_reordered h]

theorem members_of_reordered (principal : Principal) :
    SameOutcome (List.Forall₂ Membership.SameMember) (a'.members principal)
      (a.members principal) := by
  cases principal with
  | superuser => exact .ok .nil
  | anonymous => exact .ok .nil
  | user user =>
    rw [members_eq, members_eq, h.settings]
    have hclosure := Membership.sameMembers_closure a.settings h.view user
    generalize Membership.closure a'.view a.settings user = r' at hclosure ⊢
    generalize Membership.closure a.view a.settings user = r at hclosure ⊢
    cases hclosure with
    | ok hm => exact .ok hm
    | error cause => exact .error _

theorem rearranges_discover (memo : LocalMemo) (principal : Principal) (root : EntityId) :
    SameOutcome Discovery.Rearranges (a'.discover memo principal root)
      (a.discover memo principal root) := by
  rw [discover, discover, h.settings, h.shared]
  refine (members_of_reordered h principal).bind fun members' members hsame => ?_
  have hderive := Derivation.rearranges_derive a.settings h.view hsame principal
  exact (Discovery.walks_explore _ root).rearranges hderive (Discovery.walks_explore _ root)
    ⟨fun _ => .inl ⟨rfl, rfl⟩, rfl⟩

theorem resolve_of_reordered (memo : LocalMemo) (principal : Principal) (root : EntityId) :
    (a'.resolve principal root).outcome memo = (a.resolve principal root).outcome memo := by
  have hbind : ∀ b : Access ε, (b.resolve principal root).outcome memo =
      b.discover memo principal root >>= fun w =>
        .ok ((Resolved.of w).permissions root, keep memo principal w (Resolved.of w)) := by
    intro b
    rw [resolve_eq]
    cases b.discover memo principal root <;> rfl
  rw [hbind, hbind]
  refine ((rearranges_discover h memo principal root).bind fun w' w hw => .ok ?_).eq
  rw [hw.resolved_eq, keep, keep, hw.derivations.keys_eq]

/-- One question is answered alike, and leaves the same memo. -/
theorem answer_of_reordered (memo : LocalMemo) (principal : Principal) (id : EntityId) :
    a'.answer memo principal id = a.answer memo principal id := by
  rw [answer_eq, answer_eq, recollect, recollect, recalled, recalled, isSuperuser_of_reordered h,
    entity_of_reordered h, h.shared, resolve_of_reordered h]

end Reordered

/-- The order in which relationships are listed does not matter: questions asked in turn are
answered alike over any memo, with the same errors, and leave the same memo, entry by entry. -/
theorem inTurn_of_reordered (h : a'.Reordered a) (questions : List (Principal × EntityId))
    (memo : LocalMemo) : a'.inTurn questions memo = a.inTurn questions memo := by
  induction questions generalizing memo with
  | nil => rfl
  | cons q questions ih =>
    obtain ⟨principal, id⟩ := q
    have hask : (a'.permissions principal id).ask memo = (a.permissions principal id).ask memo := by
      rw [ask_permissions_eq, ask_permissions_eq, answer_of_reordered h]
    rw [inTurn_cons, inTurn_cons, hask, ih]

/-- Relationships that can be listed either way: one from a page to itself, two between the same
pages, and memberships in a group that is a member of itself. The grants of no group can be had. -/
def mirrorTables : Tables where
  entities := .ofList ([
    (⟨1⟩, .node "User"), (⟨2⟩, .node "Group"), (⟨3⟩, .node "Group"), (⟨4⟩, .node "User"),
    (⟨10⟩, .node "Page"), (⟨11⟩, .node "Page"), (⟨20⟩, .relationship "Link" ⟨10⟩ ⟨10⟩),
    (⟨21⟩, .relationship "Link" ⟨10⟩ ⟨11⟩), (⟨22⟩, .relationship "Link" ⟨10⟩ ⟨11⟩),
    (⟨23⟩, .relationship "CONTAINS" ⟨3⟩ ⟨1⟩), (⟨24⟩, .relationship "CONTAINS" ⟨2⟩ ⟨1⟩),
    (⟨25⟩, .relationship "CONTAINS" ⟨3⟩ ⟨3⟩)] : List (EntityId × Entity))
  grants := ((∅ : Grants).grant ⟨4⟩ ⟨11⟩ (.single .read)).2
  rules := (RuleBook.ofMembership "CONTAINS").declare "Link" ⟨.both, { read := .add }⟩
  grantsFail := {⟨2⟩, ⟨3⟩}

def mirror : Access Unavailable := { view := mirrorTables.view, settings := {} }

/-- The same tables with relationships listed in descending order. -/
def mirrored : Access Unavailable :=
  { view := ({ mirrorTables with isReversed := true } : Tables).view, settings := {} }

theorem inTurn_of_reordered_mirror :
    let questions := [(.user ⟨1⟩, ⟨11⟩), (.user ⟨4⟩, ⟨10⟩), (.anonymous, ⟨11⟩)]
    mirrored.view.incidents ⟨10⟩ ≠ mirror.view.incidents ⟨10⟩ ∧
      (mirror.inTurn questions ∅).1 =
        [.error (.lookup (.grants ⟨2⟩)), .ok (.single .read), .ok ∅] ∧
      mirrored.inTurn questions ∅ = mirror.inTurn questions ∅ := by
  have hview : mirrored.view.Reordered mirror.view := mirrorTables.reordered_reverse true
  exact ⟨by decide +kernel, by decide +kernel, inTurn_of_reordered ⟨hview, rfl, rfl⟩ _ _⟩

end Access
end PermissionGraph
