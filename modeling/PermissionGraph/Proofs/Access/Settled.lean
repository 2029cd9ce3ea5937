import PermissionGraph.Access.Resolution
import PermissionGraph.Proofs.Access.Partition
import PermissionGraph.Proofs.Access.Rounds
import PermissionGraph.Proofs.Order.Fold

/-!
# PermissionGraph.Proofs.Access.Settled

Resolving a table component by component, described without the order of the components. `Entries`
says of some entities what is held on them and what that rests on. Entries settle a table
(`Entries.Settles`) when each component of it fits what is known of the entities it draws on.

* `settles_of`: resolving a walk yields entries that settle what the walk has derived.
* `Settles.unique`: entries that settle a table are determined by those of the entities outside
  that the table draws on.
-/

namespace PermissionGraph

open Std

theorem getElem?_foldl_insert {α β : Type} {f : α → β} (m : EntityMap α) (r : EntityMap β)
    (k : EntityId) :
    (m.foldl (fun s id a => s.insert id (f a)) r)[k]? = (m[k]?.map f).or r[k]? :=
  @get_foldl (EntityMap β) EntityId α β _ (fun s k => s[k]?) (fun s k v => s.insert k (f v)) f _ _ _
    (fun s k v other => getElem?_insert_eq s k other (f v)) m r k

/-! ## Entries -/

/-- Of some entities, what is held on each and what that rests on. -/
abbrev Entries := EntityId → Option MemoEntry

namespace Entries

variable {R S : Entries} {members : Derivations} {id : EntityId} {e e' : MemoEntry}

def permissions (R : Entries) (id : EntityId) : PermissionSet :=
  match R id with
  | some entry => entry.permissions
  | none => ∅

def dependsOn (R : Entries) (id : EntityId) : EntitySet :=
  match R id with
  | some entry => entry.dependsOn
  | none => ∅

/-- The members of a component rest on an entity: they consult it, they draw on it, or what they
draw on outside the component rests on it. -/
def RestsOn (R : Entries) (members : Derivations) (x : EntityId) : Prop :=
  ∃ (id : EntityId) (d : Derivation), members[id]? = some d ∧
    (x ∈ d.consulted ∨ ∃ o ∈ d.origins, x = o ∨ o ∉ members ∧ x ∈ R.dependsOn o)

/-- An entry of a member of a component that fits what is known outside the component. -/
structure Fits (R : Entries) (members : Derivations) (id : EntityId) (e : MemoEntry) : Prop where
  permissions : (Settling.settle members R.permissions)[id]? = some e.permissions
  dependsOn : ∀ x, x ∈ e.dependsOn ↔ R.RestsOn members x

theorem RestsOn.congr (h : Settling.AgreeOutside members R S) {x : EntityId}
    (hx : R.RestsOn members x) : S.RestsOn members x := by
  obtain ⟨id, d, hd, hx⟩ := hx
  refine ⟨id, d, hd, hx.imp_right ?_⟩
  rintro ⟨o, ho, rfl | ⟨hnot, hx⟩⟩
  · exact ⟨x, ho, .inl rfl⟩
  · refine ⟨o, ho, .inr ⟨hnot, ?_⟩⟩
    rwa [dependsOn, ← h id d hd o ho hnot]

theorem Fits.congr (h : Settling.AgreeOutside members R S) (hf : R.Fits members id e) :
    S.Fits members id e where
  permissions := by
    rw [← hf.permissions]
    refine congrArg (·[id]?) (Settling.settle_congr ?_)
    intro y d hd o ho hnot
    rw [Entries.permissions, Entries.permissions, h y d hd o ho hnot]
  dependsOn x := by
    rw [hf.dependsOn x]
    exact ⟨RestsOn.congr h, RestsOn.congr fun y d hd o ho hnot => (h y d hd o ho hnot).symm⟩

theorem Fits.unique (h : R.Fits members id e) (h' : R.Fits members id e') : e = e' := by
  have hp : e.permissions = e'.permissions :=
    Option.some_inj.mp (h.permissions.symm.trans h'.permissions)
  have hd : e.dependsOn = e'.dependsOn := by
    apply ExtTreeSet.ext_mem
    intro x
    rw [h.dependsOn, h'.dependsOn]
  cases e
  cases e'
  congr

/-- Every component of a table fits. -/
def Settles (R : Entries) (ds : Derivations) : Prop :=
  ∀ members ∈ ds.components, ∀ id ∈ members, ∃ e, R id = some e ∧ R.Fits members id e

theorem Settles.unique {ds : Derivations} (hR : R.Settles ds) (hS : S.Settles ds)
    (hb : Settling.AgreeOutside ds R S) : ∀ id ∈ ds, R id = S id := by
  apply Derivations.component_induction
  intro members hmem ih id hin
  have hc := Derivations.isComponent_of_mem hmem
  have hagree : Settling.AgreeOutside members R S := by
    intro m d hd o ho hnot
    by_cases hods : o ∈ ds
    · exact ih m (Derivations.mem_of_getElem? hd) o hods ⟨d, hc.agree hd, ho⟩ hnot
    · exact hb m d (hc.agree hd) o ho hods
  obtain ⟨e, he, hfit⟩ := hR members hmem id hin
  obtain ⟨e', he', hfit'⟩ := hS members hmem id hin
  rw [he, he', (hfit.congr hagree).unique hfit']

end Entries

/-! ## Resolving -/

namespace Resolved

variable {r : Resolved} {d : Derivation} {members : Derivations} {id x : EntityId}

/-- What is resolved so far, as entries. -/
def entries (r : Resolved) : Entries := fun id => r[id]?

theorem mem_foldl_rest {l : List EntityId} {sum : EntitySet} :
    x ∈ l.foldl (fun sum id => sum.insert id ∪ r.dependsOn id) sum ↔
      x ∈ sum ∨ ∃ o ∈ l, x = o ∨ x ∈ r.dependsOn o := by
  induction l generalizing sum with
  | nil => simp
  | cons a l ih =>
    rw [List.foldl_cons, ih, ExtTreeSet.mem_union_iff, mem_insert_iff]
    constructor
    · rintro (((rfl | h) | h) | ⟨o, ho, h⟩)
      · exact .inr ⟨a, List.mem_cons_self, .inl rfl⟩
      · exact .inl h
      · exact .inr ⟨a, List.mem_cons_self, .inr h⟩
      · exact .inr ⟨o, List.mem_cons_of_mem a ho, h⟩
    · rintro (h | ⟨o, ho, h⟩)
      · exact .inl (.inl (.inr h))
      · rcases List.mem_cons.mp ho with rfl | ho
        · rcases h with rfl | h
          · exact .inl (.inl (.inl rfl))
          · exact .inl (.inr h)
        · exact .inr ⟨o, ho, h⟩

theorem mem_rest {sum : EntitySet} :
    x ∈ r.rest sum d ↔
      x ∈ sum ∨ x ∈ d.consulted ∨ ∃ o ∈ d.origins, x = o ∨ x ∈ r.dependsOn o := by
  rw [rest, mem_foldl_rest, ExtTreeSet.mem_union_iff, or_assoc]

theorem mem_componentDependsOn :
    x ∈ r.componentDependsOn members ↔
      ∃ (id : EntityId) (d : Derivation), members[id]? = some d ∧
        (x ∈ d.consulted ∨ ∃ o ∈ d.origins, x = o ∨ x ∈ r.dependsOn o) := by
  have hfold : ∀ (l : List (EntityId × Derivation)) (sum : EntitySet),
      x ∈ l.foldl (fun sum p => r.rest sum p.2) sum ↔
        x ∈ sum ∨ ∃ p ∈ l, x ∈ p.2.consulted ∨ ∃ o ∈ p.2.origins, x = o ∨ x ∈ r.dependsOn o := by
    intro l
    induction l with
    | nil => simp
    | cons p l ih =>
      intro sum
      rw [List.foldl_cons, ih, mem_rest, List.exists_mem_cons_iff, or_assoc]
  rw [componentDependsOn, ExtTreeMap.foldl_eq_foldl_toList, hfold]
  simp [ExtTreeMap.mem_toList_iff_getElem?_eq_some]

theorem getElem?_addComponent (r : Resolved) (members : Derivations) (id : EntityId) :
    (r.addComponent members)[id]? =
      ((Settling.settle members r.permissions)[id]?.map
        fun permissions => { permissions, dependsOn := r.componentDependsOn members }).or r[id]? :=
  getElem?_foldl_insert _ r id

theorem getElem?_addComponent_of_notMem (h : id ∉ members) :
    (r.addComponent members)[id]? = r[id]? := by
  have hnone : (Settling.settle members r.permissions)[id]? = none := by
    apply ExtTreeMap.getElem?_eq_none
    rwa [Settling.over_settle]
  rw [getElem?_addComponent, hnone]
  rfl

/-- A component that is resolved after what it draws on, and before anything of it is known, gets
entries that fit. -/
theorem fits_addComponent {R : Entries} (hin : id ∈ members)
    (hfresh : ∀ m ∈ members, r[m]? = none) (hagree : Settling.AgreeOutside members r.entries R) :
    ∃ e, (r.addComponent members)[id]? = some e ∧ R.Fits members id e := by
  obtain ⟨p, hp⟩ : ∃ p, (Settling.settle members r.permissions)[id]? = some p := by
    rw [← Option.isSome_iff_exists, ← ExtTreeMap.mem_iff_isSome_getElem?, Settling.over_settle]
    exact hin
  refine ⟨⟨p, r.componentDependsOn members⟩, ?_, Entries.Fits.congr hagree ⟨hp, fun x => ?_⟩⟩
  · rw [getElem?_addComponent, hp]
    rfl
  · rw [mem_componentDependsOn, Entries.RestsOn]
    -- nothing is known of the members yet, so what is drawn on inside adds nothing
    have hout : ∀ o, x ∈ r.dependsOn o ↔ o ∉ members ∧ x ∈ r.entries.dependsOn o := by
      intro o
      constructor
      · intro hx
        refine ⟨fun ho => ?_, hx⟩
        rw [dependsOn, hfresh o ho] at hx
        simp at hx
      · exact fun hx => hx.2
    simp only [hout]

/-- Resolving components in order, each after those that it draws on. What is resolved of a
component is never touched again, so it fits the final entries too. -/
theorem fits_foldl_addComponent {l : List Derivations}
    (hdisjoint : l.Pairwise fun a b => ∀ id ∈ a, id ∉ b)
    (hordered : l.Pairwise fun a b =>
      ∀ (id : EntityId) (d : Derivation), a[id]? = some d → ∀ o ∈ d.origins, o ∉ b)
    (hfresh : ∀ members ∈ l, ∀ id ∈ members, r[id]? = none) :
    (∀ members ∈ l, ∀ id ∈ members, ∃ e, (l.foldl addComponent r)[id]? = some e ∧
      (entries (l.foldl addComponent r)).Fits members id e) ∧
    ∀ id, (∀ members ∈ l, id ∉ members) → (l.foldl addComponent r)[id]? = r[id]? := by
  induction l generalizing r with
  | nil => simp
  | cons first l ih =>
    rw [List.pairwise_cons] at hdisjoint hordered
    have hfresh' : ∀ members ∈ l, ∀ id ∈ members, (r.addComponent first)[id]? = none := by
      intro members hmem id hid
      have hnot : id ∉ first := fun h => hdisjoint.1 members hmem id h hid
      rw [getElem?_addComponent_of_notMem hnot]
      exact hfresh members (List.mem_cons_of_mem first hmem) id hid
    obtain ⟨ih₁, ih₂⟩ := ih hdisjoint.2 hordered.2 hfresh'
    rw [List.foldl_cons]
    constructor
    · intro members hmem id hid
      rcases List.mem_cons.mp hmem with rfl | hmem
      · have hagree : Settling.AgreeOutside members r.entries
            (entries (l.foldl addComponent (r.addComponent members))) := by
          intro m d hd o ho hnot
          have hlater : ∀ later ∈ l, o ∉ later :=
            fun later hl => hordered.1 later hl m d hd o ho
          rw [entries, entries, ih₂ o hlater, getElem?_addComponent_of_notMem hnot]
        obtain ⟨e, he, hfit⟩ :=
          fits_addComponent hid (hfresh members List.mem_cons_self) hagree
        refine ⟨e, ?_, hfit⟩
        rw [ih₂ id fun later hl => hdisjoint.1 later hl id hid, he]
      · exact ih₁ members hmem id hid
    · intro id hid
      rw [ih₂ id fun members hmem => hid members (List.mem_cons_of_mem first hmem)]
      exact getElem?_addComponent_of_notMem (hid first List.mem_cons_self)

section Of

variable {w : Discovery}

theorem settles_of (hfresh : ∀ id ∈ w.derivations, w.remembered[id]? = none) :
    (entries (of w)).Settles w.derivations := by
  intro members hmem id hid
  exact (fits_foldl_addComponent Derivations.components_disjoint Derivations.components_ordered
    fun m hm id hid => hfresh id (Derivations.mem_of_mem_component hm hid)).1 members hmem id hid

theorem getElem?_of_remembered (hfresh : ∀ id ∈ w.derivations, w.remembered[id]? = none)
    (h : id ∉ w.derivations) : (of w)[id]? = w.remembered[id]? :=
  (fits_foldl_addComponent Derivations.components_disjoint Derivations.components_ordered
    fun _ hm id hid => hfresh id (Derivations.mem_of_mem_component hm hid)).2 id
      fun _ hm hid => h (Derivations.mem_of_mem_component hm hid)

end Of

end Resolved
end PermissionGraph
