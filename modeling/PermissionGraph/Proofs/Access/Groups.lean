import Mathlib.Data.List.Nodup
import PermissionGraph.Proofs.Access.Locality

/-!
# PermissionGraph.Proofs.Access.Groups

The groups of a user and what is inherited from them. A membership hop is taken (`Takes`) from a
member to a group; groups are told apart by their distance from the user, the least number of hops
that leads there (`AtDistance`).

* `levels_spec`, `closure_spec`: the closure lists every entity within the greatest depth once,
  those farther away first, each with the hops that lead one step farther.
* `evaluate_spec`: evaluating members one by one gives an assignment that solves the equations of
  all of them, since each comes after those it inherits from.
* `inherited_spec`: what a user inherits is a solution of the equations over the whole closure.
-/

namespace PermissionGraph

open Std

variable {ε : Type}

namespace Membership

/-! ## Distance -/

section Distance

variable {R : EntityId → EntityId → Prop} {user x y : EntityId} {i j n : Nat}

/-- An entity can be reached from a user in at most `n` steps. -/
def Within (R : EntityId → EntityId → Prop) (user : EntityId) : Nat → EntityId → Prop
  | 0, x => x = user
  | n + 1, x => Within R user n x ∨ ∃ y, Within R user n y ∧ R y x

/-- The least number of steps in which an entity can be reached from a user is `n`. -/
structure AtDistance (R : EntityId → EntityId → Prop) (user : EntityId) (n : Nat) (x : EntityId) :
    Prop where
  within : Within R user n x
  least : ∀ i < n, ¬ Within R user i x

theorem Within.mono (h : Within R user i x) (hij : i ≤ j) : Within R user j x := by
  induction hij with
  | refl => exact h
  | step _ ih => exact .inl ih

theorem Within.of_imp {S : EntityId → EntityId → Prop} (h : Within R user n x)
    (hRS : ∀ y z, R y z → S y z) : Within S user n x := by
  induction n generalizing x with
  | zero => exact h
  | succ n ih =>
    rcases h with h | ⟨y, hy, hyx⟩
    · exact .inl (ih h)
    · exact .inr ⟨y, ih hy, hRS y x hyx⟩

theorem atDistance_zero_iff : AtDistance R user 0 x ↔ x = user := by
  constructor
  · exact fun h => h.within
  · exact fun h => ⟨h, fun i hi => absurd hi (Nat.not_lt_zero i)⟩

theorem AtDistance.unique (h : AtDistance R user i x) (h' : AtDistance R user j x) : i = j := by
  rcases Nat.lt_trichotomy i j with hij | hij | hij
  · exact absurd h.within (h'.least i hij)
  · exact hij
  · exact absurd h'.within (h.least j hij)

theorem within_succ_iff : Within R user (n + 1) x ↔
    Within R user n x ∨ AtDistance R user (n + 1) x := by
  constructor
  · intro h
    by_cases hn : Within R user n x
    · exact .inl hn
    · exact .inr ⟨h, fun i hi hwithin => hn (hwithin.mono (Nat.le_of_lt_succ hi))⟩
  · rintro (h | h)
    · exact .inl h
    · exact h.within

theorem within_iff_exists : Within R user n x ↔ ∃ i ≤ n, AtDistance R user i x := by
  constructor
  · intro h
    induction n with
    | zero => exact ⟨0, Nat.le_refl 0, atDistance_zero_iff.mpr h⟩
    | succ n ih =>
      rcases within_succ_iff.mp h with hn | hn
      · obtain ⟨i, hi, hx⟩ := ih hn
        exact ⟨i, Nat.le_succ_of_le hi, hx⟩
      · exact ⟨n + 1, Nat.le_refl _, hn⟩
  · rintro ⟨i, hi, hx⟩
    exact hx.within.mono hi

/-- A step from a known distance leads one step farther, or to what is no farther away. -/
theorem AtDistance.step (h : AtDistance R user n x) (hxy : R x y) :
    AtDistance R user (n + 1) y ↔ ¬ Within R user n y := by
  constructor
  · exact fun hy => hy.least n (Nat.lt_succ_self n)
  · intro hy
    exact ⟨.inr ⟨x, h.within, hxy⟩, fun i hi hwithin => hy (hwithin.mono (Nat.le_of_lt_succ hi))⟩

/-- What is at a distance is reached by a step from what is one step nearer. -/
theorem atDistance_succ_iff : AtDistance R user (n + 1) x ↔
    ¬ Within R user n x ∧ ∃ y, AtDistance R user n y ∧ R y x := by
  constructor
  · intro h
    have hn := h.least n (Nat.lt_succ_self n)
    rcases h.within with hwithin | ⟨y, hy, hyx⟩
    · exact absurd hwithin hn
    · obtain ⟨i, hi, hy⟩ := within_iff_exists.mp hy
      have hin : i = n := by
        rcases Nat.lt_or_ge i n with hlt | hge
        · have hx : Within R user (i + 1) x := .inr ⟨y, hy.within, hyx⟩
          exact absurd (hx.mono hlt) hn
        · exact Nat.le_antisymm hi hge
      rw [hin] at hy
      exact ⟨hn, y, hy, hyx⟩
  · rintro ⟨hn, y, hy, hyx⟩
    exact (hy.step hyx).mpr hn

end Distance

/-! ## Levels -/

variable {view : GraphView ε} {settings : Settings} {user entity : EntityId} {m : Member}
  {members : List Member} {hop : Hop} {n depth : Nat} {known : EntitySet} {level : List EntityId}

/-- A membership hop is among those that lead from a member to its groups. -/
def Takes (view : GraphView ε) (settings : Settings) (member : EntityId) (hop : Hop) : Prop :=
  ∃ found, hops view settings member = .ok found ∧ hop ∈ found

/-- Some membership hop leads from a member to a group. -/
def LeadsTo (view : GraphView ε) (settings : Settings) (member group : EntityId) : Prop :=
  ∃ hop, Takes view settings member hop ∧ hop.group = group

/-- The groups of a user by distance. -/
abbrev At (view : GraphView ε) (settings : Settings) (user : EntityId) : Nat → EntityId → Prop :=
  AtDistance (LeadsTo view settings) user

theorem takes_iff {found : List Hop} {member : EntityId}
    (h : hops view settings member = .ok found) : Takes view settings member hop ↔ hop ∈ found := by
  constructor
  · rintro ⟨found', h', hmem⟩
    have heq := h.symm.trans h'
    injection heq with heq
    rwa [heq]
  · exact fun hmem => ⟨found, h, hmem⟩

/-- The hops from a member go over its relationships of the membership name whose rule propagates
towards it. -/
theorem takes_iff_exists_incident {member : EntityId} : Takes view settings member hop ↔
    ∃ incidents, view.incidents member = .ok incidents ∧ ∃ i ∈ incidents,
      i.relationshipType.name = settings.membershipName ∧ admits view.rules i = true ∧
        hop = ⟨i.other, view.rules.ruleFor i.relationshipType⟩ := by
  have hmem : ∀ {incidents : List Incident} {i : Incident},
      i ∈ sortBy Incident.ble (incidents.filter fun i =>
        i.relationshipType.name == settings.membershipName && admits view.rules i) ↔
      i ∈ incidents ∧ i.relationshipType.name = settings.membershipName ∧
        admits view.rules i = true := by
    intro incidents i
    rw [mem_sortBy, List.mem_filter, Bool.and_eq_true, beq_iff_eq]
  constructor
  · rintro ⟨found, hfound, hhop⟩
    obtain ⟨incidents, hincidents, rfl⟩ := hops_eq_ok_iff.mp hfound
    obtain ⟨i, hi, rfl⟩ := List.mem_map.mp hhop
    obtain ⟨hi, hname, hadmits⟩ := hmem.mp hi
    exact ⟨incidents, hincidents, i, hi, hname, hadmits, rfl⟩
  · rintro ⟨incidents, hincidents, i, hi, hname, hadmits, rfl⟩
    exact ⟨_, hops_eq_ok_iff.mpr ⟨incidents, hincidents, rfl⟩,
      List.mem_map.mpr ⟨i, hmem.mpr ⟨hi, hname, hadmits⟩, rfl⟩⟩

/-- Members that are read one after another keep their order, and each is what is read for it. -/
theorem map_id_of_mapM {f : EntityId → Except ε Member} (hid : ∀ {x m}, f x = .ok m → m.id = x)
    (h : level.mapM f = .ok members) :
    members.map Member.id = level ∧ ∀ m ∈ members, f m.id = .ok m := by
  induction level generalizing members with
  | nil =>
    injection h with h
    rw [← h]
    exact ⟨rfl, fun m hm => absurd hm List.not_mem_nil⟩
  | cons x level ih =>
    obtain ⟨first, rest, hx, hrest, rfl⟩ := mapM_cons_eq_ok_iff.mp h
    obtain ⟨hids, hall⟩ := ih hrest
    have hfirst := hid hx
    rw [List.map_cons, hids, hfirst]
    refine ⟨rfl, List.forall_mem_cons.mpr ⟨?_, hall⟩⟩
    rw [hfirst, hx]

/-- What the closure says of a member at distance `n`, where the members at distance `last` are the
farthest: its hops are those that lead one step farther. -/
structure Placed (view : GraphView ε) (settings : Settings) (user : EntityId) (last n : Nat)
    (m : Member) : Prop where
  atDistance : At view settings user n m.id
  exists_hops : ∃ found, hops view settings m.id = .ok found
  mem_hops : ∀ hop, hop ∈ m.hops ↔
    n < last ∧ Takes view settings m.id hop ∧ At view settings user (n + 1) hop.group

theorem placed_of_deeper {last : Nat} (hm : At view settings user n m.id) (hn : n < last)
    (hknown : ∀ x, x ∈ known ↔ Within (LeadsTo view settings) user n x)
    (h : deeper view settings known m.id = .ok m) : Placed view settings user last n m := by
  obtain ⟨found, hfound, heq⟩ := deeper_eq_ok_iff.mp h
  refine ⟨hm, ⟨found, hfound⟩, fun hop => ?_⟩
  rw [heq, List.mem_filter, decide_eq_true_eq, ← takes_iff hfound, hknown]
  constructor
  · rintro ⟨htakes, hnot⟩
    exact ⟨hn, htakes, (hm.step ⟨hop, htakes, rfl⟩).mpr hnot⟩
  · rintro ⟨_, htakes, hat⟩
    exact ⟨htakes, (hm.step ⟨hop, htakes, rfl⟩).mp hat⟩

theorem placed_of_deepest (hm : At view settings user n m.id)
    (h : deepest view settings m.id = .ok m) : Placed view settings user n n m := by
  obtain ⟨found, hfound, heq⟩ := deepest_eq_ok_iff.mp h
  refine ⟨hm, ⟨found, hfound⟩, fun hop => ?_⟩
  rw [heq]
  simp

/-- The walk has come to the entities at distance `n`. -/
structure Frontier (view : GraphView ε) (settings : Settings) (user : EntityId) (n : Nat)
    (known : EntitySet) (level : List EntityId) : Prop where
  mem_known : ∀ x, x ∈ known ↔ Within (LeadsTo view settings) user n x
  mem_level : ∀ x, x ∈ level ↔ At view settings user n x
  nodup : level.Nodup

theorem mem_foldl_insert {l : List EntityId} {s : EntitySet} {x : EntityId} :
    x ∈ l.foldl .insert s ↔ x ∈ l ∨ x ∈ s := by
  induction l generalizing s with
  | nil => simp
  | cons y l ih =>
    rw [List.foldl_cons, ih, mem_insert_iff, List.mem_cons]
    simp [or_assoc, or_left_comm, eq_comm]

theorem nodup_eraseDups (l : List EntityId) : l.eraseDups.Nodup := by
  induction hn : l.length using Nat.strong_induction_on generalizing l with
  | _ n ih =>
    cases l with
    | nil => simp
    | cons x l =>
      rw [List.eraseDups_cons, List.nodup_cons]
      refine ⟨by simp [List.mem_eraseDups], ih _ ?_ _ rfl⟩
      rw [← hn]
      exact Nat.lt_succ_of_le (List.length_filter_le _ l)

theorem frontier_initial : Frontier view settings user 0 {user} [user] where
  mem_known _ := Derivation.mem_singleton
  mem_level _ := List.mem_singleton.trans atDistance_zero_iff.symm
  nodup := List.nodup_singleton user

theorem Frontier.next {last : Nat} (h : Frontier view settings user n known level) (hn : n < last)
    (hids : members.map Member.id = level)
    (hplaced : ∀ m ∈ members, Placed view settings user last n m) :
    Frontier view settings user (n + 1) ((nextLevel members).foldl .insert known)
      (nextLevel members) := by
  have hlevel : ∀ x, x ∈ nextLevel members ↔ At view settings user (n + 1) x := by
    intro x
    rw [mem_nextLevel]
    constructor
    · rintro ⟨m, hm, hop, hhop, rfl⟩
      exact (((hplaced m hm).mem_hops hop).mp hhop).2.2
    · intro hx
      obtain ⟨_, y, hy, hop, htakes, hgroup⟩ := atDistance_succ_iff.mp hx
      have hmem := (h.mem_level y).mpr hy
      rw [← hids] at hmem
      obtain ⟨m, hm, rfl⟩ := List.mem_map.mp hmem
      rw [← hgroup] at hx
      exact ⟨m, hm, hop, ((hplaced m hm).mem_hops hop).mpr ⟨hn, htakes, hx⟩, hgroup⟩
  refine ⟨fun x => ?_, hlevel, nodup_eraseDups _⟩
  rw [mem_foldl_insert, hlevel, h.mem_known, within_succ_iff, or_comm]

/-- Members listed one distance after another, from `n` to `last`. -/
structure Lists (view : GraphView ε) (settings : Settings) (user : EntityId) (last n : Nat)
    (members : List Member) : Prop where
  mem : ∀ x, x ∈ members.map Member.id ↔ ∃ i, n ≤ i ∧ i ≤ last ∧ At view settings user i x
  placed : ∀ m ∈ members, ∃ i, Placed view settings user last i m
  nodup : (members.map Member.id).Nodup
  sorted : members.Pairwise fun a b => ∀ i j, At view settings user i a.id →
    At view settings user j b.id → i ≤ j

/-- Where nothing is at a distance, nothing is farther away. -/
theorem not_at_of_le (h : ∀ x, ¬ At view settings user n x) {i : Nat} (hi : n ≤ i) (x : EntityId) :
    ¬ At view settings user i x := by
  induction hi generalizing x with
  | refl => exact h x
  | step _ ih =>
    intro hx
    obtain ⟨_, y, hy, _⟩ := atDistance_succ_iff.mp hx
    exact ih y hy

theorem Frontier.lists_nil {last : Nat} (h : Frontier view settings user n known []) :
    Lists view settings user last n [] := by
  have hempty : ∀ x, ¬ At view settings user n x :=
    fun x hx => List.not_mem_nil ((h.mem_level x).mpr hx)
  refine ⟨fun x => ?_, fun m hm => absurd hm List.not_mem_nil, List.nodup_nil, .nil⟩
  constructor
  · exact fun hx => absurd hx List.not_mem_nil
  · rintro ⟨i, hi, _, hx⟩
    exact absurd hx (not_at_of_le hempty hi x)

/-- The members of one level, before those farther away. -/
theorem Frontier.lists_append {last : Nat} {rest : List Member}
    (h : Frontier view settings user n known level) (hn : n ≤ last)
    (hids : members.map Member.id = level)
    (hplaced : ∀ m ∈ members, Placed view settings user last n m)
    (hrest : Lists view settings user last (n + 1) rest) :
    Lists view settings user last n (members ++ rest) := by
  have hmem : ∀ x, x ∈ members.map Member.id ↔ At view settings user n x := by
    intro x
    rw [hids, h.mem_level]
  have hnodup : (members.map Member.id).Nodup := by
    rw [hids]
    exact h.nodup
  refine ⟨fun x => ?_, fun m hm => ?_, ?_, ?_⟩
  · rw [List.map_append, List.mem_append, hmem, hrest.mem]
    constructor
    · rintro (hx | ⟨i, hi, hlast, hx⟩)
      · exact ⟨n, Nat.le_refl n, hn, hx⟩
      · exact ⟨i, Nat.le_of_succ_le hi, hlast, hx⟩
    · rintro ⟨i, hi, hlast, hx⟩
      rcases Nat.eq_or_lt_of_le hi with rfl | hlt
      · exact .inl hx
      · exact .inr ⟨i, hlt, hlast, hx⟩
  · rcases List.mem_append.mp hm with hm | hm
    · exact ⟨n, hplaced m hm⟩
    · exact hrest.placed m hm
  · rw [List.map_append, List.nodup_append]
    refine ⟨hnodup, hrest.nodup, fun x hx y hy => ?_⟩
    rintro rfl
    obtain ⟨i, hi, _, hxi⟩ := (hrest.mem x).mp hy
    have heq := hxi.unique ((hmem x).mp hx)
    omega
  · rw [List.pairwise_append]
    refine ⟨?_, hrest.sorted, fun a ha b hb i j hi hj => ?_⟩
    · refine List.pairwise_of_forall_mem_list fun a ha b hb i j hi hj => ?_
      rw [hi.unique (hplaced a ha).atDistance, hj.unique (hplaced b hb).atDistance]
    · obtain ⟨k, hk, _, hbk⟩ := (hrest.mem b.id).mp (List.mem_map_of_mem hb)
      rw [hi.unique (hplaced a ha).atDistance, hj.unique hbk]
      omega

theorem levels_spec (h : Frontier view settings user n known level)
    (hok : levels view settings depth known level = .ok members) :
    Lists view settings user (n + depth) n members := by
  induction depth generalizing n known level members with
  | zero =>
    cases level with
    | nil =>
      injection hok with hok
      rw [← hok]
      exact h.lists_nil
    | cons x level =>
      obtain ⟨hids, hread⟩ := map_id_of_mapM id_of_deepest hok
      have hplaced : ∀ m ∈ members, Placed view settings user n n m := fun m hm =>
        placed_of_deepest ((h.mem_level m.id).mp (hids ▸ List.mem_map_of_mem hm)) (hread m hm)
      have hrest : Lists view settings user n (n + 1) [] := by
        refine ⟨fun y => ?_, fun m hm => absurd hm List.not_mem_nil, List.nodup_nil, .nil⟩
        simp only [List.map_nil, List.not_mem_nil, false_iff, not_exists]
        omega
      have hlists := h.lists_append (Nat.le_refl n) hids hplaced hrest
      rwa [List.append_nil] at hlists
  | succ depth ih =>
    cases level with
    | nil =>
      injection hok with hok
      rw [← hok]
      exact h.lists_nil
    | cons x level =>
      obtain ⟨found, hfound, rest, hrest, rfl⟩ := levels_cons_eq_ok_iff.mp hok
      have hn : n < n + (depth + 1) := by omega
      obtain ⟨hids, hread⟩ := map_id_of_mapM id_of_deeper hfound
      have hplaced : ∀ m ∈ found, Placed view settings user (n + (depth + 1)) n m :=
        fun m hm => placed_of_deeper
          ((h.mem_level m.id).mp (hids ▸ List.mem_map_of_mem hm)) hn h.mem_known (hread m hm)
      -- the farthest distance stays the same: one level fewer follows, from one step farther away
      have hlists := ih (h.next hn hids hplaced) hrest
      rw [Nat.add_right_comm, Nat.add_assoc] at hlists
      exact h.lists_append (Nat.le_of_lt hn) hids hplaced hlists

/-- The closure of a user: every entity within the greatest depth, once, those farther away
first. -/
structure IsClosure (view : GraphView ε) (settings : Settings) (user : EntityId)
    (members : List Member) : Prop where
  mem : ∀ x, x ∈ members.map Member.id ↔
    Within (LeadsTo view settings) user settings.maxGroupDepth x
  placed : ∀ m ∈ members, ∃ n, Placed view settings user settings.maxGroupDepth n m
  nodup : (members.map Member.id).Nodup
  sorted : members.Pairwise fun a b => ∀ i j, At view settings user i a.id →
    At view settings user j b.id → j ≤ i

theorem closure_spec (h : closure view settings user = .ok members) :
    IsClosure view settings user members := by
  obtain ⟨found, hfound, rfl⟩ := closure_eq_ok_iff.mp h
  have hlists := levels_spec frontier_initial hfound
  rw [Nat.zero_add] at hlists
  refine ⟨fun x => ?_, fun m hm => hlists.placed m (List.mem_reverse.mp hm), ?_, ?_⟩
  · rw [List.map_reverse, List.mem_reverse, hlists.mem, within_iff_exists]
    simp
  · rw [List.map_reverse, List.nodup_reverse]
    exact hlists.nodup
  · rw [List.pairwise_reverse]
    exact hlists.sorted.imp fun h i j hi hj => h j i hj hi

/-! ## What is inherited -/

theorem combine_congr {granted : PermissionSet} {l : List Hop} {f g : EntityId → PermissionSet}
    (h : ∀ hop ∈ l, f hop.group = g hop.group) : combine granted l f = combine granted l g := by
  have hadded : l.map (fun hop => hop.rule.added (f hop.group)) =
      l.map fun hop => hop.rule.added (g hop.group) :=
    List.map_congr_left fun hop hhop => by rw [h hop hhop]
  have hremoved : l.map (fun hop => hop.rule.removed (f hop.group)) =
      l.map fun hop => hop.rule.removed (g hop.group) :=
    List.map_congr_left fun hop hhop => by rw [h hop hhop]
  rw [combine, combine, hadded, hremoved]

/-- No member inherits from itself or from a member that is evaluated later. -/
structure Ordered (members : List Member) : Prop where
  nodup : (members.map Member.id).Nodup
  later : members.Pairwise fun a b => ∀ hop ∈ a.hops, hop.group ≠ b.id
  self : ∀ m ∈ members, ∀ hop ∈ m.hops, hop.group ≠ m.id

theorem IsClosure.ordered (h : IsClosure view settings user members) : Ordered members := by
  refine ⟨h.nodup, ?_, fun m hm hop hhop heq => ?_⟩
  · refine h.sorted.imp_of_mem fun {a b} ha hb hab hop hhop heq => ?_
    obtain ⟨i, hi⟩ := h.placed a ha
    obtain ⟨j, hj⟩ := h.placed b hb
    obtain ⟨_, _, hat⟩ := (hi.mem_hops hop).mp hhop
    rw [heq] at hat
    have hle := hab i j hi.atDistance hj.atDistance
    have hji := hj.atDistance.unique hat
    omega
  · obtain ⟨i, hi⟩ := h.placed m hm
    obtain ⟨_, _, hat⟩ := (hi.mem_hops hop).mp hhop
    rw [heq] at hat
    have hii := hi.atDistance.unique hat
    omega

/-- What evaluation has in the end satisfies the equation of each member, and is what it began with
for any other entity. -/
theorem evaluate_spec {held final : EntityMap PermissionSet} (h : Ordered members)
    (hok : evaluate view entity members held = .ok final) :
    (∀ x, x ∉ members.map Member.id → final[x]? = held[x]?) ∧
    ∀ m ∈ members, ∃ granted, view.granted m.id entity = .ok granted ∧
      final[m.id]? = some (combine granted m.hops (final.getD · ∅)) := by
  induction members generalizing held with
  | nil =>
    injection hok with hok
    rw [hok]
    exact ⟨fun _ _ => rfl, fun m hm => absurd hm List.not_mem_nil⟩
  | cons first rest ih =>
    obtain ⟨granted, hg, hok⟩ := evaluate_cons_eq_ok_iff.mp hok
    have hnodup := h.nodup
    rw [List.map_cons, List.nodup_cons] at hnodup
    obtain ⟨hfirst, hlater⟩ := List.pairwise_cons.mp h.later
    have hrest : Ordered rest :=
      ⟨hnodup.2, hlater, fun m hm => h.self m (List.mem_cons_of_mem first hm)⟩
    obtain ⟨hframe, heqs⟩ := ih hrest hok
    have hout : ∀ x, x ∉ (first :: rest).map Member.id → final[x]? = held[x]? := by
      intro x hx
      rw [List.map_cons, List.mem_cons, not_or] at hx
      rw [hframe x hx.2, getElem?_insert_eq, if_neg fun e => hx.1 e.symm]
    refine ⟨hout, List.forall_mem_cons.mpr ⟨⟨granted, hg, ?_⟩, heqs⟩⟩
    rw [hframe first.id hnodup.1, getElem?_insert_eq, if_pos rfl]
    -- the groups of the first member are not evaluated any more
    refine congrArg some (combine_congr fun hop hhop => ?_)
    have hgroup : hop.group ∉ (first :: rest).map Member.id := by
      rw [List.map_cons, List.mem_cons, not_or]
      refine ⟨h.self first List.mem_cons_self hop hhop, fun hmem => ?_⟩
      obtain ⟨m, hm, hid⟩ := List.mem_map.mp hmem
      exact hfirst m hm hop hhop hid.symm
    rw [ExtTreeMap.getD_eq_getD_getElem?, ExtTreeMap.getD_eq_getD_getElem?, hout _ hgroup]

/-- An assignment to a user and its groups in which each holds what is granted to it and what it
inherits from groups one hop farther away. -/
def Inherits (view : GraphView ε) (settings : Settings) (user entity : EntityId)
    (X : EntityId → PermissionSet) : Prop :=
  ∀ n x, n ≤ settings.maxGroupDepth → At view settings user n x →
    ∃ granted hops, view.granted x entity = .ok granted ∧ X x = combine granted hops X ∧
      ∀ hop, hop ∈ hops ↔ n < settings.maxGroupDepth ∧ Takes view settings x hop ∧
        At view settings user (n + 1) hop.group

theorem inherited_spec {s : PermissionSet} (hclosure : closure view settings user = .ok members)
    (hok : inherited view members user entity = .ok s) :
    ∃ X, Inherits view settings user entity X ∧ X user = s := by
  have hc := closure_spec hclosure
  obtain ⟨final, hfinal, rfl⟩ := inherited_eq_ok_iff.mp hok
  refine ⟨(final.getD · ∅), fun n x hn hx => ?_, rfl⟩
  obtain ⟨m, hm, rfl⟩ := List.mem_map.mp ((hc.mem x).mpr (within_iff_exists.mpr ⟨n, hn, hx⟩))
  obtain ⟨i, hi⟩ := hc.placed m hm
  rw [hi.atDistance.unique hx] at hi
  obtain ⟨granted, hgranted, heq⟩ := (evaluate_spec hc.ordered hfinal).2 m hm
  refine ⟨granted, m.hops, hgranted, ?_, hi.mem_hops⟩
  show final.getD m.id ∅ = _
  rw [ExtTreeMap.getD_eq_getD_getElem?, heq]
  rfl

end Membership
end PermissionGraph
