import PermissionGraph.Proofs.Access.Available
import PermissionGraph.Proofs.Access.Groups

/-!
# PermissionGraph.Proofs.Access.Closure

The closure of a user, said of the graph alone. A member belongs to a group over a relationship of
the membership name whose rule propagates towards the member (`Belongs`). In a graph whose look-ups
succeed, a user has a closure, and it is the bounded closure by shortest paths
(`ShortestPaths`, `closure_of_available`): it lists what is within the greatest depth, each entity
once and with one hop for every membership that leads one step farther, in an order in which every
group stands before the members that inherit from it.
-/

namespace PermissionGraph

open Std

variable {ε : Type}

namespace Membership

variable {view : GraphView ε} {settings : Settings} {user : EntityId} {m : Member}
  {members : List Member} {hop : Hop} {n last depth : Nat} {known : EntitySet}
  {level : List EntityId} {found : List Hop} {incidents : List Incident}

/-- A relationship by which the entity that sees it belongs to the group at the other end. -/
def isMembership (view : GraphView ε) (settings : Settings) (i : Incident) : Bool :=
  i.relationshipType.name == settings.membershipName && admits view.rules i

/-- The hop over a membership. -/
def hopOver (view : GraphView ε) (i : Incident) : Hop :=
  ⟨i.other, view.rules.ruleFor i.relationshipType⟩

/-- A member belongs to a group. -/
def Belongs (view : GraphView ε) (settings : Settings) (member group : EntityId) : Prop :=
  ∃ incidents, view.incidents member = .ok incidents ∧
    ∃ i ∈ incidents, isMembership view settings i = true ∧ i.other = group

theorem leadsTo_iff {member group : EntityId} :
    LeadsTo view settings member group ↔ Belongs view settings member group := by
  simp only [LeadsTo, takes_iff_exists_incident, Belongs, isMembership, Bool.and_eq_true,
    beq_iff_eq]
  constructor
  · rintro ⟨_, ⟨incidents, hl, i, hi, hname, hadmits, rfl⟩, rfl⟩
    exact ⟨incidents, hl, i, hi, ⟨hname, hadmits⟩, rfl⟩
  · rintro ⟨incidents, hl, i, hi, ⟨hname, hadmits⟩, rfl⟩
    exact ⟨_, ⟨incidents, hl, i, hi, hname, hadmits, rfl⟩, rfl⟩

theorem leadsTo_eq (view : GraphView ε) (settings : Settings) :
    LeadsTo view settings = Belongs view settings :=
  funext fun _ => funext fun _ => propext leadsTo_iff

/-! ## Hops -/

theorem perm_of_hops {member : EntityId} (h : hops view settings member = .ok found) :
    ∃ incidents, view.incidents member = .ok incidents ∧
      found.Perm ((incidents.filter (isMembership view settings)).map (hopOver view)) := by
  obtain ⟨incidents, hl, rfl⟩ := hops_eq_ok_iff.mp h
  exact ⟨incidents, hl, (sortBy_perm _ _).map _⟩

theorem exists_filter_of_levels (hok : levels view settings depth known level = .ok members)
    (hm : m ∈ members) :
    ∃ found p, hops view settings m.id = .ok found ∧ m.hops = found.filter p := by
  induction depth generalizing known level members with
  | zero =>
    cases level with
    | nil =>
      cases hok
      exact absurd hm List.not_mem_nil
    | cons x level =>
      obtain ⟨found, hfound, heq⟩ :=
        deepest_eq_ok_iff.mp ((map_id_of_mapM id_of_deepest hok).2 m hm)
      refine ⟨found, fun _ => false, hfound, ?_⟩
      rw [heq, List.filter_false]
  | succ depth ih =>
    cases level with
    | nil =>
      cases hok
      exact absurd hm List.not_mem_nil
    | cons x level =>
      obtain ⟨first, hfirst, rest, hrest, rfl⟩ := levels_cons_eq_ok_iff.mp hok
      rcases List.mem_append.mp hm with hm | hm
      · obtain ⟨found, hfound, heq⟩ :=
          deeper_eq_ok_iff.mp ((map_id_of_mapM id_of_deeper hfirst).2 m hm)
        exact ⟨found, _, hfound, by rw [heq]⟩
      · exact ih hrest hm

/-! ## The closure -/

/-- The members of a user by shortest paths of memberships. -/
structure ShortestPaths (view : GraphView ε) (settings : Settings) (user : EntityId)
    (members : List Member) : Prop where
  /-- No entity is listed twice. -/
  nodup : (members.map Member.id).Nodup
  /-- What is listed is within the greatest depth, and all that is. -/
  mem : ∀ x, x ∈ members.map Member.id ↔
    Within (Belongs view settings) user settings.maxGroupDepth x
  /-- A member inherits over each membership that leads one step farther, with the rule of that
  membership, but not beyond the greatest depth. -/
  hops : ∀ m ∈ members, ∃ n incidents leads, AtDistance (Belongs view settings) user n m.id ∧
    view.incidents m.id = .ok incidents ∧
    (∀ i ∈ incidents, leads i = true ↔ isMembership view settings i = true ∧
      n < settings.maxGroupDepth ∧ AtDistance (Belongs view settings) user (n + 1) i.other) ∧
    m.hops.Perm ((incidents.filter leads).map (hopOver view))
  /-- Who is farther away comes first. -/
  sorted : members.Pairwise fun a b => ∀ i j, AtDistance (Belongs view settings) user i a.id →
    AtDistance (Belongs view settings) user j b.id → j ≤ i
  /-- Groups stand before those that inherit from them. -/
  before : ∀ l m l', members = l ++ m :: l' → ∀ hop ∈ m.hops, hop.group ∈ l.map Member.id

theorem exists_filter_of_closure (hok : closure view settings user = .ok members)
    (hm : m ∈ members) :
    ∃ found p, hops view settings m.id = .ok found ∧ m.hops = found.filter p := by
  obtain ⟨found, hfound, rfl⟩ := closure_eq_ok_iff.mp hok
  exact exists_filter_of_levels hfound (List.mem_reverse.mp hm)

theorem IsClosure.hops_perm (h : IsClosure view settings user members)
    (hok : closure view settings user = .ok members) (hm : m ∈ members) :
    ∃ n incidents leads, At view settings user n m.id ∧ view.incidents m.id = .ok incidents ∧
      (∀ i ∈ incidents, leads i = true ↔ isMembership view settings i = true ∧
        n < settings.maxGroupDepth ∧ At view settings user (n + 1) i.other) ∧
      m.hops.Perm ((incidents.filter leads).map (hopOver view)) := by
  obtain ⟨n, hn⟩ := h.placed m hm
  obtain ⟨found, p, hfound, hp⟩ := exists_filter_of_closure hok hm
  obtain ⟨incidents, hl, hperm⟩ := perm_of_hops hfound
  refine ⟨n, incidents, fun i => p (hopOver view i) && isMembership view settings i, hn.atDistance,
    hl, fun i hi => ?_, ?_⟩
  · show (p (hopOver view i) && isMembership view settings i) = true ↔ _
    rw [Bool.and_comm, Bool.and_eq_true]
    refine and_congr_right fun hmembership => ?_
    have hhop : hopOver view i ∈ found :=
      hperm.mem_iff.mpr (List.mem_map_of_mem (List.mem_filter.mpr ⟨hi, hmembership⟩))
    have hiff : hopOver view i ∈ m.hops ↔ p (hopOver view i) = true := by
      rw [hp, List.mem_filter, and_iff_right hhop]
    rw [← hiff, hn.mem_hops, takes_iff hfound, and_iff_right hhop]
    rfl
  · rw [hp]
    refine (hperm.filter p).trans (.of_eq ?_)
    rw [List.filter_map, List.filter_filter]
    rfl

/-- A group that a member inherits from is one step farther away, so it is neither the member nor
listed after it. -/
theorem IsClosure.mem_before (h : IsClosure view settings user members) {l l' : List Member}
    (hsplit : members = l ++ m :: l') (hhop : hop ∈ m.hops) : hop.group ∈ l.map Member.id := by
  have hm : m ∈ members := hsplit ▸ List.mem_append_right l List.mem_cons_self
  obtain ⟨n, hn⟩ := h.placed m hm
  obtain ⟨hlast, _, hat⟩ := (hn.mem_hops hop).mp hhop
  obtain ⟨g, hg, hgroup⟩ := List.mem_map.mp ((h.mem hop.group).mpr (hat.within.mono hlast))
  rw [← hgroup] at hat ⊢
  rw [hsplit, List.mem_append, List.mem_cons] at hg
  rcases hg with hg | rfl | hg
  · exact List.mem_map_of_mem hg
  · have := hat.unique hn.atDistance
    omega
  · have hsorted := h.sorted
    rw [hsplit, List.pairwise_append, List.pairwise_cons] at hsorted
    have hle := hsorted.2.1.1 g hg n (n + 1) hn.atDistance hat
    omega

/-- Where look-ups succeed a user has a closure, and it is the one by shortest paths. -/
theorem closure_of_available (h : view.Available) (settings : Settings) (user : EntityId) :
    ∃ members, closure view settings user = .ok members ∧
      ShortestPaths view settings user members := by
  obtain ⟨members, hok⟩ := exists_closure h.incidents settings user
  have hclosure := closure_spec hok
  have hmem := hclosure.mem
  have hsorted := hclosure.sorted
  have hhops := fun m hm => @hclosure.hops_perm _ _ _ _ m members hok hm
  simp only [At, leadsTo_eq] at hmem hsorted hhops
  exact ⟨members, hok, hclosure.nodup, hmem, hhops, hsorted,
    fun l m l' hsplit hop hhop => hclosure.mem_before hsplit hhop⟩

/-- A user in two groups, one of them joined twice, that both belong to a third. The third belongs
to itself, to the user and to a fourth group, and one of the two to the other. -/
def circlesTables : Tables where
  entities := .ofList ([
    (⟨1⟩, .node "User"), (⟨2⟩, .node "Group"), (⟨3⟩, .node "Group"), (⟨4⟩, .node "Group"),
    (⟨5⟩, .node "Group"), (⟨20⟩, .relationship "CONTAINS" ⟨2⟩ ⟨1⟩),
    (⟨21⟩, .relationship "CONTAINS" ⟨2⟩ ⟨1⟩), (⟨22⟩, .relationship "CONTAINS" ⟨3⟩ ⟨1⟩),
    (⟨23⟩, .relationship "CONTAINS" ⟨4⟩ ⟨2⟩), (⟨24⟩, .relationship "CONTAINS" ⟨4⟩ ⟨3⟩),
    (⟨25⟩, .relationship "CONTAINS" ⟨4⟩ ⟨4⟩), (⟨26⟩, .relationship "CONTAINS" ⟨1⟩ ⟨4⟩),
    (⟨27⟩, .relationship "CONTAINS" ⟨5⟩ ⟨4⟩), (⟨28⟩, .relationship "CONTAINS" ⟨2⟩ ⟨3⟩)] :
    List (EntityId × Entity))
  rules := .ofMembership "CONTAINS"

def circles : GraphView Unavailable := circlesTables.recover.view

theorem closure_of_available_circles : circles.Available ∧ ∃ members,
    closure circles { maxGroupDepth := 2 } ⟨1⟩ = .ok members ∧
      ShortestPaths circles { maxGroupDepth := 2 } ⟨1⟩ members ∧
      members.map (fun m => (m.id, m.hops.map Hop.group)) =
        [(⟨4⟩, []), (⟨3⟩, [⟨4⟩]), (⟨2⟩, [⟨4⟩]), (⟨1⟩, [⟨2⟩, ⟨2⟩, ⟨3⟩])] := by
  have havailable : circles.Available := circlesTables.available_recover
  obtain ⟨members, hok, hpaths⟩ := closure_of_available havailable { maxGroupDepth := 2 } ⟨1⟩
  obtain ⟨found, hfound, hids⟩ := exists_of_map_eq_ok
    (show (closure circles { maxGroupDepth := 2 } ⟨1⟩).map
      (·.map fun m => (m.id, m.hops.map Hop.group)) =
        .ok [(⟨4⟩, []), (⟨3⟩, [⟨4⟩]), (⟨2⟩, [⟨4⟩]), (⟨1⟩, [⟨2⟩, ⟨2⟩, ⟨3⟩])] by decide +kernel)
  rw [hok] at hfound
  cases hfound
  exact ⟨havailable, members, hok, hpaths, hids⟩

end Membership
end PermissionGraph
