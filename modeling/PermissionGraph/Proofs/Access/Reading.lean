import PermissionGraph.Access.Discovery
import PermissionGraph.Proofs.Access.Reach

/-!
# PermissionGraph.Proofs.Access.Reading

Reading groups and derivations off a graph: what it takes to succeed, and what is then known of it.

* `levels_cons_eq_ok_iff`, `evaluate_cons_eq_ok_iff`: one level of groups, one member evaluated.
* `derive_eq_ok_iff`: the look-ups that a derivation is made of.
* `mem_consulted_baseOf`: what is consulted for the base of an entity: the entity itself, the user,
  and the groups of the user unless the user owns the entity.
-/

namespace PermissionGraph

open Std Derivations

variable {ε : Type} {view : GraphView ε} {settings : Settings} {members : List Member}
  {principal : Principal} {id x user : EntityId} {e : Entity} {d : Derivation}

/-! ## Look-ups in a row -/

theorem bind_eq_ok_iff {α β : Type} {r : Except ε α} {f : α → Except ε β} {b : β} :
    r >>= f = .ok b ↔ ∃ a, r = .ok a ∧ f a = .ok b := by
  cases r with
  | error cause =>
    constructor
    · intro h
      cases h
    · rintro ⟨_, h, _⟩
      cases h
  | ok a =>
    constructor
    · exact fun h => ⟨a, rfl, h⟩
    · rintro ⟨_, h, hf⟩
      injection h with h
      rwa [← h] at hf

theorem pure_eq_ok_iff {α : Type} {a b : α} : (pure a : Except ε α) = .ok b ↔ b = a := by
  constructor
  · intro h
    injection h with h
    exact h.symm
  · rintro rfl
    rfl

theorem exists_of_map_eq_ok {α β : Type} {g : α → β} {r : Except ε α} {b : β}
    (h : r.map g = .ok b) : ∃ a, r = .ok a ∧ g a = b := by
  cases r with
  | error cause => cases h
  | ok a =>
    injection h with h
    exact ⟨a, rfl, h⟩

theorem mapM_cons_eq_ok_iff {α β : Type} {f : α → Except ε β} {a : α} {l : List α} {bs : List β} :
    (a :: l).mapM f = .ok bs ↔ ∃ b cs, f a = .ok b ∧ l.mapM f = .ok cs ∧ bs = b :: cs := by
  rw [List.mapM_cons]
  simp only [bind_eq_ok_iff, pure_eq_ok_iff, exists_and_left]

/-! ## Groups -/

namespace Membership

variable {member : EntityId} {m : Member} {known : EntitySet} {depth : Nat} {level : List EntityId}
  {held final : EntityMap PermissionSet} {s : PermissionSet}

theorem hops_eq_ok_iff {found : List Hop} : hops view settings member = .ok found ↔
    ∃ incidents, view.incidents member = .ok incidents ∧
      found = (sortBy Incident.ble (incidents.filter fun i =>
        i.relationshipType.name == settings.membershipName && admits view.rules i)).map
          fun i => ⟨i.other, view.rules.ruleFor i.relationshipType⟩ := by
  rw [hops]
  simp only [bind_eq_ok_iff, pure_eq_ok_iff]

theorem deeper_eq_ok_iff : deeper view settings known member = .ok m ↔
    ∃ found, hops view settings member = .ok found ∧
      m = ⟨member, found.filter fun hop => hop.group ∉ known⟩ := by
  rw [deeper]
  simp only [bind_eq_ok_iff, pure_eq_ok_iff]

theorem deepest_eq_ok_iff : deepest view settings member = .ok m ↔
    ∃ found, hops view settings member = .ok found ∧ m = ⟨member, []⟩ := by
  rw [deepest]
  simp only [bind_eq_ok_iff, pure_eq_ok_iff]

theorem levels_cons_eq_ok_iff : levels view settings (depth + 1) known (x :: level) = .ok members ↔
    ∃ found, (x :: level).mapM (deeper view settings known) = .ok found ∧
      ∃ rest, levels view settings depth ((nextLevel found).foldl .insert known)
        (nextLevel found) = .ok rest ∧ members = found ++ rest := by
  rw [levels]
  · simp only [bind_eq_ok_iff, pure_eq_ok_iff]
  · exact List.cons_ne_nil x level

theorem closure_eq_ok_iff : closure view settings user = .ok members ↔
    ∃ found, levels view settings settings.maxGroupDepth {user} [user] = .ok found ∧
      members = found.reverse := by
  rw [closure]
  simp only [bind_eq_ok_iff, pure_eq_ok_iff]

theorem evaluate_cons_eq_ok_iff : evaluate view id (m :: members) held = .ok final ↔
    ∃ granted, view.granted m.id id = .ok granted ∧
      evaluate view id members (held.insert m.id (combine granted m.hops (held.getD · ∅))) =
        .ok final := by
  rw [evaluate, bind_eq_ok_iff]

theorem inherited_eq_ok_iff : inherited view members user id = .ok s ↔
    ∃ held, evaluate view id members ∅ = .ok held ∧ s = held.getD user ∅ := by
  rw [inherited]
  simp only [bind_eq_ok_iff, pure_eq_ok_iff]

end Membership

namespace Derivation

/-! ## Bases -/

theorem baseOf_of_owner (h : e.owner = some user) :
    baseOf view members (.user user) id e = .ok (.full, {id, user}) := by
  rw [baseOf, if_pos h]
  rfl

theorem baseOf_of_not_owner (h : e.owner ≠ some user) :
    baseOf view members (.user user) id e =
      match Membership.inherited view members user id with
      | .error cause => .error cause
      | .ok granted =>
        .ok ((if e.visibility.isPublic || e.visibility.isAuthenticated then .single .read else ∅)
            ∪ granted,
          members.foldl (fun s m => s.insert m.id) {id, user}) := by
  rw [baseOf, if_neg h]
  cases Membership.inherited view members user id <;> rfl

theorem baseOf_eq_ok_iff_of_not_owner (h : e.owner ≠ some user) {s : PermissionSet × EntitySet} :
    baseOf view members (.user user) id e = .ok s ↔
      ∃ granted, Membership.inherited view members user id = .ok granted ∧
        s = ((if e.visibility.isPublic || e.visibility.isAuthenticated then .single .read else ∅)
            ∪ granted,
          members.foldl (fun s m => s.insert m.id) {id, user}) := by
  rw [baseOf, if_neg h]
  simp only [bind_eq_ok_iff, pure_eq_ok_iff]

theorem mem_foldl_insert_id {l : List Member} {s : EntitySet} :
    x ∈ l.foldl (fun s m => s.insert m.id) s ↔ (∃ m ∈ l, m.id = x) ∨ x ∈ s := by
  induction l generalizing s with
  | nil => simp
  | cons m l ih =>
    rw [List.foldl_cons, ih, mem_insert_iff]
    simp [or_assoc, or_comm, or_left_comm]

theorem mem_singleton : x ∈ ({id} : EntitySet) ↔ x = id := by
  show x ∈ (∅ : EntitySet).insert id ↔ x = id
  rw [mem_insert_iff]
  simp [eq_comm]

theorem mem_pair : x ∈ ({id, user} : EntitySet) ↔ x = id ∨ x = user := by
  show x ∈ (({user} : EntitySet).insert id) ↔ x = id ∨ x = user
  rw [mem_insert_iff, mem_singleton, eq_comm]

/-- What is consulted for the base of an entity. -/
theorem mem_consulted_baseOf {s : PermissionSet × EntitySet}
    (h : baseOf view members principal id e = .ok s) :
    x ∈ s.2 ↔ x = id ∨ ∃ user, principal = .user user ∧
      (x = user ∨ e.owner ≠ some user ∧ ∃ m ∈ members, m.id = x) := by
  cases principal with
  | superuser =>
    injection h with h
    have hs : x ∈ s.2 ↔ x = id := by rw [← h, mem_singleton]
    simp [hs]
  | anonymous =>
    injection h with h
    have hs : x ∈ s.2 ↔ x = id := by rw [← h, mem_singleton]
    simp [hs]
  | user user =>
    by_cases ho : e.owner = some user
    · rw [baseOf_of_owner ho] at h
      injection h with h
      rw [← h, mem_pair]
      constructor
      · rintro (rfl | rfl)
        · exact .inl rfl
        · exact .inr ⟨x, rfl, .inl rfl⟩
      · rintro (rfl | ⟨found, hfound, rfl | ⟨hno, _⟩⟩)
        · exact .inl rfl
        · injection hfound with hfound
          exact .inr hfound.symm
        · injection hfound with hfound
          exact absurd (hfound ▸ ho) hno
    · obtain ⟨granted, _, hs⟩ := (baseOf_eq_ok_iff_of_not_owner ho).mp h
      rw [hs, mem_foldl_insert_id, mem_pair]
      constructor
      · rintro (hm | rfl | rfl)
        · exact .inr ⟨user, rfl, .inr ⟨ho, hm⟩⟩
        · exact .inl rfl
        · exact .inr ⟨x, rfl, .inl rfl⟩
      · rintro (rfl | ⟨found, hfound, rfl | ⟨_, hm⟩⟩)
        · exact .inr (.inl rfl)
        · injection hfound with hfound
          exact .inr (.inr hfound.symm)
        · exact .inl hm

/-! ## Derivations -/

theorem mem_endpointInputs {base : PermissionSet} {input : Input} :
    input ∈ endpointInputs settings base e ↔
      settings.readableFromEndpoints = true ∧ base.holds .read = false ∧
        ∃ source target, e.endpoints? = some (source, target) ∧
          input = .endpoints source target := by
  have hand : (settings.readableFromEndpoints && !base.holds .read) = true ↔
      settings.readableFromEndpoints = true ∧ base.holds .read = false := by
    rw [Bool.and_eq_true, Bool.not_eq_true']
  rw [endpointInputs, ← and_assoc, ← hand]
  split
  · next hopen =>
    rw [and_iff_right hopen]
    cases e.endpoints? with
    | none => simp
    | some ends =>
      obtain ⟨source, target⟩ := ends
      simp
  · next hclosed => simp [hclosed]

/-- A relationship draws on its endpoints. -/
theorem exists_of_mem_endpointInputs {base : PermissionSet} {input : Input}
    (h : input ∈ endpointInputs settings base e) :
    ∃ source target, e.endpoints? = some (source, target) ∧ input = .endpoints source target :=
  (mem_endpointInputs.mp h).2.2

theorem of_eq_ok_iff : Derivation.of view settings members principal id e = .ok d ↔
    ∃ incidents, baseOf view members principal id e = .ok (d.base, d.consulted) ∧
      view.incidents id = .ok incidents ∧
      d.inputs = endpointInputs settings d.base e ++ propagatedInputs view.rules incidents := by
  rw [Derivation.of]
  simp only [bind_eq_ok_iff, pure_eq_ok_iff]
  constructor
  · rintro ⟨s, hb, incidents, hi, rfl⟩
    exact ⟨incidents, hb, hi, rfl⟩
  · rintro ⟨incidents, hb, hi, hinputs⟩
    refine ⟨(d.base, d.consulted), hb, incidents, hi, ?_⟩
    rw [← hinputs]

end Derivation

namespace Discovery

theorem derive_eq_ok_iff : derive view settings members principal id = .ok d ↔
    ∃ e, view.entity? id = .ok (some e) ∧
      Derivation.of view settings members principal id e = .ok d := by
  rw [derive]
  constructor
  · intro h
    split at h
    · cases h
    · cases h
    · next e he =>
      split at h
      · cases h
      · next found hfound =>
        injection h with h
        exact ⟨e, he, h ▸ hfound⟩
  · rintro ⟨e, he, hd⟩
    rw [he]
    dsimp only
    rw [hd]

end Discovery
end PermissionGraph
