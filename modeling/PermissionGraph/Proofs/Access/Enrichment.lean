import PermissionGraph.Proofs.Access.Growth

/-!
# PermissionGraph.Proofs.Access.Enrichment

Additive rules are monotone. Under rules that take nothing away, no principal loses a kind when a
graph is enriched (`GraphView.Enriches`): when more is granted, more entities can be seen by
everyone, and relationships are added that are no memberships. Nor does anyone who is known hold
less than the anonymous principal (`tellsNoMore`).

Memberships stay what they are, so every group stays at its distance from a user
(`atDistance_iff`). The rest goes over the least solution: an entity that gains reading does without
its endpoints, so the two graphs hang together differently, but what the richer one holds is
lowered by a round of the other (`Derivations.leExcept_entries`).
-/

namespace PermissionGraph

open Std Derivations

variable {ε : Type}

/-! ## Richer graphs -/

/-- An entity that is the same as another but may be seen by more principals. -/
structure Entity.Enriches (e' e : Entity) : Prop where
  typeName : e'.typeName = e.typeName
  kind : e'.kind = e.kind
  owner : e'.owner = e.owner
  isAdmin : e'.isAdmin = e.isAdmin
  isPublic : e.visibility.isPublic = true → e'.visibility.isPublic = true
  isAuthenticated : e.visibility.isAuthenticated = true → e'.visibility.isAuthenticated = true

/-- A graph with all that is in another, where look-ups succeed in both: the same entities but for
flags that are set, no fewer grants, and no fewer relationships, but the same memberships. -/
structure GraphView.Enriches (view' view : GraphView ε) (membershipName : String) : Prop where
  rules : view'.rules = view.rules
  entity : ∀ {id : EntityId} {e e' : Entity}, view.entity? id = .ok (some e) →
    view'.entity? id = .ok (some e') → e'.Enriches e
  granted : ∀ {principal id : EntityId} {s s' : PermissionSet}, view.granted principal id = .ok s →
    view'.granted principal id = .ok s' → s ≤ s'
  incidents : ∀ {id : EntityId} {l l' : List Incident}, view.incidents id = .ok l →
    view'.incidents id = .ok l' → ∀ i ∈ l, i ∈ l'
  memberships : ∀ {id : EntityId} {l l' : List Incident}, view.incidents id = .ok l →
    view'.incidents id = .ok l' → ∀ i ∈ l', i.relationshipType.name = membershipName → i ∈ l

theorem Entity.Enriches.endpoints? {e e' : Entity} (h : e'.Enriches e) :
    e'.endpoints? = e.endpoints? := by
  rw [Entity.endpoints?, Entity.endpoints?, h.kind]

/-! ## Tables -/

namespace Tables

variable {t t' : Tables} {membershipName : String}

/-- Tables with all that is in others, and possibly more grants, flags that are set, and
relationships between entities of those that are no memberships. -/
structure Enriches (t' t : Tables) (membershipName : String) : Prop where
  rules : t'.rules = t.rules
  grants : ∀ principal id, t.grants.lookup principal id ≤ t'.grants.lookup principal id
  entity : ∀ (id : EntityId) (e : Entity), t.entities[id]? = some e →
    ∃ e', t'.entities[id]? = some e' ∧ e'.Enriches e
  added : ∀ (id : EntityId) (e' : Entity), t.entities[id]? = none → t'.entities[id]? = some e' →
    e'.typeName ≠ membershipName ∧
      ∃ ends, e'.endpoints? = some ends ∧ ends.1 ∈ t.entities ∧ ends.2 ∈ t.entities

theorem Enriches.typeName_eq (h : t'.Enriches t membershipName) {id : EntityId}
    (hid : id ∈ t.entities) : typeName t'.entities id = typeName t.entities id := by
  obtain ⟨e, he⟩ := Option.isSome_iff_exists.mp (ExtTreeMap.mem_iff_isSome_getElem?.mp hid)
  obtain ⟨e', he', henriches⟩ := h.entity id e he
  rw [typeName, typeName, he, he']
  exact henriches.typeName

theorem Enriches.ofRelationship_eq (h : t'.Enriches t membershipName) (hclosed : t.isClosed = true)
    {r viewer source target : EntityId} {e e' : Entity} (he : t.entities[r]? = some e)
    (hends : e.endpoints? = some (source, target)) (henriches : e'.Enriches e) :
    Incident.ofRelationship viewer r
        ⟨e'.typeName, typeName t'.entities source, typeName t'.entities target⟩ source target =
      Incident.ofRelationship viewer r
        ⟨e.typeName, typeName t.entities source, typeName t.entities target⟩ source target := by
  obtain ⟨hsource, htarget⟩ := isClosed_iff.mp hclosed r e _ he hends
  rw [henriches.typeName, h.typeName_eq hsource, h.typeName_eq htarget]

theorem Enriches.view (h : t'.Enriches t membershipName) (hclosed : t.isClosed = true) :
    t'.view.Enriches t.view membershipName where
  rules := h.rules
  entity {id e e'} he he' := by
    obtain ⟨found, hfound, henriches⟩ := h.entity id e (getElem?_of_entity? he)
    rw [getElem?_of_entity? he'] at hfound
    injection hfound with hfound
    rwa [hfound]
  granted {principal id s s'} hs hs' := by
    rw [← lookup_of_granted hs, ← lookup_of_granted hs']
    exact h.grants principal id
  incidents {id l l'} hl hl' i hi := by
    rw [mem_incidents_iff hl, mem_scan_iff] at hi
    rw [mem_incidents_iff hl', mem_scan_iff]
    obtain ⟨r, e, source, target, he, hends, hi⟩ := hi
    obtain ⟨e', he', henriches⟩ := h.entity r e he
    refine ⟨r, e', source, target, he', henriches.endpoints?.trans hends, ?_⟩
    rwa [h.ofRelationship_eq hclosed he hends henriches]
  memberships {id l l'} hl hl' i hi hname := by
    rw [mem_incidents_iff hl', mem_scan_iff] at hi
    rw [mem_incidents_iff hl, mem_scan_iff]
    obtain ⟨r, e', source, target, he', hends, hi⟩ := hi
    cases he : t.entities[r]? with
    | none =>
      have hne := (h.added r e' he he').1
      rcases Incident.mem_ofRelationship.mp hi with ⟨_, rfl⟩ | ⟨_, rfl⟩
      · exact absurd hname hne
      · exact absurd hname hne
    | some e =>
      obtain ⟨found, hfound, henriches⟩ := h.entity r e he
      rw [he'] at hfound
      injection hfound with hfound
      subst hfound
      have hends' := henriches.endpoints?.symm.trans hends
      refine ⟨r, e, source, target, he, hends', ?_⟩
      rwa [← h.ofRelationship_eq hclosed he hends' henriches]

/-! Tables are enriched one addition at a time. -/

/-- Grants more to a principal on an entity. -/
def addGrant (t : Tables) (principal id : EntityId) (kinds : PermissionSet) : Tables :=
  { t with grants := (t.grants.grant principal id kinds).2 }

/-- Lets more principals see an entity. -/
def addVisibility (t : Tables) (id : EntityId) (v : Visibility) : Tables :=
  match t.entities[id]? with
  | none => t
  | some e =>
    let visibility := ⟨e.visibility.isPublic || v.isPublic,
      e.visibility.isAuthenticated || v.isAuthenticated⟩
    { t with entities := t.entities.insert id { e with visibility } }

/-- Adds a relationship under an identifier. -/
def addRelationship (t : Tables) (id : EntityId) (name : String) (source target : EntityId) :
    Tables :=
  { t with entities := t.entities.insert id (.relationship name source target) }

theorem Enriches.refl (t : Tables) (membershipName : String) : t.Enriches t membershipName where
  rules := rfl
  grants _ _ := PermissionSet.le_refl _
  entity _ e he := ⟨e, he, ⟨rfl, rfl, rfl, rfl, id, id⟩⟩
  added id e' he he' := by
    rw [he] at he'
    cases he'

theorem Enriches.addGrant (h : t'.Enriches t membershipName) (principal id : EntityId)
    (kinds : PermissionSet) : (t'.addGrant principal id kinds).Enriches t membershipName where
  rules := h.rules
  grants p x := by
    rw [Tables.addGrant, Grants.lookup_grant]
    split
    · next heq =>
      rw [heq.1, heq.2]
      exact PermissionSet.le_trans (h.grants p x) (PermissionSet.le_union_left _ _)
    · exact h.grants p x
  entity := h.entity
  added := h.added

theorem Enriches.addVisibility (h : t'.Enriches t membershipName) (id : EntityId)
    (v : Visibility) : (t'.addVisibility id v).Enriches t membershipName := by
  rw [Tables.addVisibility]
  cases hid : t'.entities[id]? with
  | none => exact h
  | some e' =>
    refine ⟨h.rules, h.grants, fun x e he => ?_, fun x found he hfound => ?_⟩
    · obtain ⟨found, hfound, henriches⟩ := h.entity x e he
      by_cases hx : id = x
      · subst hx
        have heq : e' = found := Option.some_inj.mp (hid.symm.trans hfound)
        subst heq
        refine ⟨_, (getElem?_insert_eq _ _ _ _).trans (if_pos rfl), ?_⟩
        exact { henriches with
          isPublic := fun hp => by rw [henriches.isPublic hp]; rfl
          isAuthenticated := fun hp => by rw [henriches.isAuthenticated hp]; rfl }
      · exact ⟨found, ((getElem?_insert_eq _ _ _ _).trans (if_neg hx)).trans hfound, henriches⟩
    · dsimp only at hfound
      rw [getElem?_insert_eq] at hfound
      split at hfound
      · next hx =>
        subst hx
        injection hfound with hfound
        rw [← hfound]
        exact h.added id e' he hid
      · exact h.added x found he hfound

theorem Enriches.addRelationship (h : t'.Enriches t membershipName) {id source target : EntityId}
    {name : String} (hfree : t.entities[id]? = none) (hname : name ≠ membershipName)
    (hsource : source ∈ t.entities) (htarget : target ∈ t.entities) :
    (t'.addRelationship id name source target).Enriches t membershipName := by
  refine ⟨h.rules, h.grants, fun x e he => ?_, fun x found he hfound => ?_⟩
  · obtain ⟨found, hfound, henriches⟩ := h.entity x e he
    have hx : id ≠ x := by
      rintro rfl
      rw [hfree] at he
      cases he
    exact ⟨found, ((getElem?_insert_eq _ _ _ _).trans (if_neg hx)).trans hfound, henriches⟩
  · rw [Tables.addRelationship] at hfound
    dsimp only at hfound
    rw [getElem?_insert_eq] at hfound
    split at hfound
    · injection hfound with hfound
      rw [← hfound]
      exact ⟨hname, (source, target), rfl, hsource, htarget⟩
    · exact h.added x found he hfound

end Tables

/-! ## Groups -/

namespace Membership

section Distance

variable {R S : EntityId → EntityId → Prop} {user x : EntityId} {n last : Nat}

theorem within_congr (h : ∀ y, Within R user last y → Within S user last y → ∀ z, R y z ↔ S y z)
    (hn : n ≤ last) : Within R user n x ↔ Within S user n x := by
  induction n generalizing x with
  | zero => exact Iff.rfl
  | succ n ih =>
    have hlast : n ≤ last := by omega
    refine or_congr (ih hlast) (exists_congr fun y => ?_)
    constructor
    · rintro ⟨hy, hyx⟩
      have hy' := (ih hlast).mp hy
      exact ⟨hy', (h y (hy.mono hlast) (hy'.mono hlast) x).mp hyx⟩
    · rintro ⟨hy', hyx⟩
      have hy := (ih hlast).mpr hy'
      exact ⟨hy, (h y (hy.mono hlast) (hy'.mono hlast) x).mpr hyx⟩

theorem atDistance_congr
    (h : ∀ y, Within R user last y → Within S user last y → ∀ z, R y z ↔ S y z) (hn : n ≤ last) :
    AtDistance R user n x ↔ AtDistance S user n x := by
  have hwithin : ∀ i ≤ n, Within R user i x ↔ Within S user i x :=
    fun i hi => within_congr h (Nat.le_trans hi hn)
  constructor
  · exact fun hx => ⟨(hwithin n (Nat.le_refl n)).mp hx.within,
      fun i hi hin => hx.least i hi ((hwithin i (Nat.le_of_lt hi)).mpr hin)⟩
  · exact fun hx => ⟨(hwithin n (Nat.le_refl n)).mpr hx.within,
      fun i hi hin => hx.least i hi ((hwithin i (Nat.le_of_lt hi)).mp hin)⟩

end Distance

variable {view view' : GraphView ε} {settings : Settings} {user entity x : EntityId}
  {members members' : List Member} {hop : Hop} {k : Permission} {n : Nat} {s s' : PermissionSet}

/-- The relationships of all groups of a user have been looked up. -/
theorem exists_incidents_of_within (hc : closure view settings user = .ok members)
    (hx : Within (LeadsTo view settings) user settings.maxGroupDepth x) :
    ∃ l, view.incidents x = .ok l := by
  have hclosure := closure_spec hc
  obtain ⟨m, hm, rfl⟩ := List.mem_map.mp ((hclosure.mem x).mpr hx)
  obtain ⟨_, hplaced⟩ := hclosure.placed m hm
  obtain ⟨_, hfound⟩ := hplaced.exists_hops
  obtain ⟨l, hl, _⟩ := hops_eq_ok_iff.mp hfound
  exact ⟨l, hl⟩

section Enriches

variable (h : view'.Enriches view settings.membershipName)
  (hc : closure view settings user = .ok members)
  (hc' : closure view' settings user = .ok members')
include h hc hc'

theorem takes_iff_of_enriches
    (hx : Within (LeadsTo view settings) user settings.maxGroupDepth x)
    (hx' : Within (LeadsTo view' settings) user settings.maxGroupDepth x) :
    Takes view settings x hop ↔ Takes view' settings x hop := by
  obtain ⟨l, hl⟩ := exists_incidents_of_within hc hx
  obtain ⟨l', hl'⟩ := exists_incidents_of_within hc' hx'
  rw [takes_iff_exists_incident, takes_iff_exists_incident, h.rules]
  constructor
  · rintro ⟨found, hfound, i, hi, hname, hadmits, rfl⟩
    have heq := hl.symm.trans hfound
    injection heq with heq
    subst heq
    exact ⟨l', hl', i, h.incidents hl hl' i hi, hname, hadmits, rfl⟩
  · rintro ⟨found, hfound, i, hi, hname, hadmits, rfl⟩
    have heq := hl'.symm.trans hfound
    injection heq with heq
    subst heq
    exact ⟨l, hl, i, h.memberships hl hl' i hi hname, hname, hadmits, rfl⟩

theorem leadsTo_iff_of_enriches
    (y : EntityId) (hy : Within (LeadsTo view settings) user settings.maxGroupDepth y)
    (hy' : Within (LeadsTo view' settings) user settings.maxGroupDepth y) (z : EntityId) :
    LeadsTo view settings y z ↔ LeadsTo view' settings y z :=
  exists_congr fun _ => and_congr_left' (takes_iff_of_enriches h hc hc' hy hy')

theorem atDistance_iff (hn : n ≤ settings.maxGroupDepth) :
    At view settings user n x ↔ At view' settings user n x :=
  atDistance_congr (leadsTo_iff_of_enriches h hc hc') hn

theorem Carries.of_enriches (hcarries : Carries view settings user k n x) :
    Carries view' settings user k n x := by
  induction hcarries with
  | user => exact .user
  | @hop n x hop hx hlt htakes hadd hat ih =>
    have hwithin := hx.atDistance.within.mono hx.le
    have hwithin' := ih.atDistance.within.mono ih.le
    exact .hop ih hlt ((takes_iff_of_enriches h hc hc' hwithin hwithin').mp htakes) hadd
      ((atDistance_iff h hc hc' hlt).mp hat)

theorem inherited_le_of_enriches (hrules : view.rules.RemovesNothing)
    (hi : inherited view members user entity = .ok s)
    (hi' : inherited view' members' user entity = .ok s') : s ≤ s' := by
  have hrules' : view'.rules.RemovesNothing := by rwa [h.rules]
  have hhops : HopsRemoveNothing view settings := hopsRemoveNothing hrules
  have hhops' : HopsRemoveNothing view' settings := hopsRemoveNothing hrules'
  obtain ⟨X, hX, rfl⟩ := inherited_spec hc hi
  obtain ⟨X', hX', rfl⟩ := inherited_spec hc' hi'
  refine PermissionSet.le_of_le_union_full (a := X' user) ?_ (PermissionSet.le_refl _)
    fun k hk => ?_
  · -- bits that stand for no kind come from grants to the user
    obtain ⟨granted, hgranted, _, hle⟩ := hX.own hhops
    obtain ⟨granted', hgranted', hle', _⟩ := hX'.own hhops'
    have hgrant := PermissionSet.le_trans (h.granted hgranted hgranted') hle'
    exact PermissionSet.le_trans hle (PermissionSet.union_le_iff.mpr ⟨PermissionSet.le_trans hgrant
      (PermissionSet.le_union_left _ _), PermissionSet.le_union_right _ _⟩)
  · obtain ⟨n, group, granted, hcarries, hgranted, hholds⟩ := (hX.holds_iff hhops).mp hk
    have hcarries' := hcarries.of_enriches h hc hc'
    obtain ⟨granted', _, hgranted', _⟩ := hX' n group hcarries'.le hcarries'.atDistance
    exact (hX'.holds_iff hhops').mpr ⟨n, group, granted', hcarries', hgranted',
      PermissionSet.holds_of_le (h.granted hgranted hgranted') hholds⟩

end Enriches
end Membership

/-! ## Bases -/

theorem PermissionSet.union_le_union {a b c d : PermissionSet} (h : a ≤ c) (h' : b ≤ d) :
    a ∪ b ≤ c ∪ d :=
  union_le_iff.mpr ⟨le_trans h (le_union_left c d), le_trans h' (le_union_right c d)⟩

theorem PermissionSet.ite_le_ite {s : PermissionSet} {b c : Bool} (h : b = true → c = true) :
    (if b then s else ∅) ≤ if c then s else ∅ := by
  cases b with
  | false => exact empty_le _
  | true =>
    rw [h rfl]
    exact le_refl _

namespace Access

variable {a a' : Access ε} {principal principal' : Principal} {id user : EntityId}
  {members members' : List Member} {e e' : Entity}

theorem baseOf_le_of_enriches (hview : a'.view.Enriches a.view a.settings.membershipName)
    (hsettings : a'.settings = a.settings) (hrules : a.view.rules.RemovesNothing)
    (hm : a.members principal = .ok members) (hm' : a'.members principal = .ok members')
    (he : e'.Enriches e) {s s' : PermissionSet × EntitySet}
    (h : Derivation.baseOf a.view members principal id e = .ok s)
    (h' : Derivation.baseOf a'.view members' principal id e' = .ok s') : s.1 ≤ s'.1 := by
  cases principal with
  | superuser =>
    cases h
    cases h'
    exact PermissionSet.le_refl _
  | anonymous =>
    cases h
    cases h'
    exact PermissionSet.ite_le_ite he.isPublic
  | user user =>
    by_cases ho : e.owner = some user
    · rw [Derivation.baseOf_of_owner ho] at h
      rw [Derivation.baseOf_of_owner (he.owner.trans ho)] at h'
      cases h
      cases h'
      exact PermissionSet.le_refl _
    · have ho' : e'.owner ≠ some user := by rwa [he.owner]
      obtain ⟨granted, hi, rfl⟩ := (Derivation.baseOf_eq_ok_iff_of_not_owner ho).mp h
      obtain ⟨granted', hi', rfl⟩ := (Derivation.baseOf_eq_ok_iff_of_not_owner ho').mp h'
      have hc' := members_user hm'
      rw [hsettings] at hc'
      have hle := Membership.inherited_le_of_enriches hview (members_user hm) hc' hrules hi hi'
      refine PermissionSet.union_le_union (PermissionSet.ite_le_ite fun hvisible => ?_) hle
      rw [Bool.or_eq_true] at hvisible ⊢
      exact hvisible.imp he.isPublic he.isAuthenticated

theorem baseOf_anonymous_le_full {s : PermissionSet × EntitySet}
    (h : Derivation.baseOf a.view members .anonymous id e = .ok s) : s.1 ≤ .full := by
  cases h
  show (if e.visibility.isPublic then _ else _) ≤ _
  split
  · exact PermissionSet.single_le_iff.mpr (PermissionSet.holds_full .read)
  · exact PermissionSet.empty_le _

/-- On its own, the anonymous principal holds no more on an entity than any user. -/
theorem baseOf_anonymous_le {s s' : PermissionSet × EntitySet}
    (h : Derivation.baseOf a.view members .anonymous id e = .ok s)
    (h' : Derivation.baseOf a.view members' (.user user) id e = .ok s') : s.1 ≤ s'.1 := by
  by_cases ho : e.owner = some user
  · rw [Derivation.baseOf_of_owner ho] at h'
    cases h'
    exact baseOf_anonymous_le_full h
  · cases h
    obtain ⟨granted, _, rfl⟩ := (Derivation.baseOf_eq_ok_iff_of_not_owner ho).mp h'
    refine PermissionSet.le_trans (PermissionSet.ite_le_ite fun hpublic => ?_)
      (PermissionSet.le_union_left _ _)
    rw [hpublic, Bool.true_or]

/-! ## Answers -/

/-- Whatever one principal is told of an entity of a graph, another is told no less, of the entity
with the same identifier in another graph. -/
def TellsNoMore (a : Access ε) (principal : Principal) (a' : Access ε) (principal' : Principal) :
    Prop :=
  ∀ id s s' memo memo', a.answer ∅ principal id = .ok (s, memo) →
    a'.answer ∅ principal' id = .ok (s', memo') → s ≤ s'

theorem exists_isSuperuser {s : PermissionSet} {memo : LocalMemo}
    (h : a.answer ∅ principal id = .ok (s, memo)) : ∃ b, a.isSuperuser principal = .ok b := by
  cases hsuper : a.isSuperuser principal with
  | error cause =>
    rw [answer_eq, hsuper] at h
    cases h
  | ok b => exact ⟨b, rfl⟩

/-- A principal whose derivations are kept for another is told no more than that one. -/
theorem le_of_keeps (hrules : a.view.rules.RemovesNothing) (hrules' : a'.view.rules.RemovesNothing)
    (hsuper : a.isSuperuser principal = .ok false)
    (hsuper' : a'.isSuperuser principal' = .ok false)
    (hkeeps : ∀ (x : EntityId) (d d' : Derivation), (a.derivations principal)[x]? = some d →
      (a'.derivations principal')[x]? = some d' → d'.Keeps d fun _ => False)
    {s s' : PermissionSet} {memo memo' : LocalMemo} (h : a.answer ∅ principal id = .ok (s, memo))
    (h' : a'.answer ∅ principal' id = .ok (s', memo')) : s ≤ s' := by
  obtain ⟨entry, hentry, rfl⟩ := exists_entries_of_answer_empty hsuper h
  obtain ⟨entry', hentry', rfl⟩ := exists_entries_of_answer_empty hsuper' h'
  have hle := leExcept_entries (adds_derivations hrules) (adds_derivations hrules')
    (isComplete_of_entries hentry) (isComplete_of_entries hentry') hkeeps
  rw [Entries.permissions, Entries.permissions, hentry, hentry'] at hle
  refine hle.le fun k hlost => ?_
  obtain ⟨_, _, hfalse⟩ := hlost
  exact hfalse

theorem isSuperuser_of_enriches (hview : a'.view.Enriches a.view a.settings.membershipName)
    (hsettings : a'.settings = a.settings) {b b' : Bool} (h : a.isSuperuser principal = .ok b)
    (h' : a'.isSuperuser principal = .ok b') : b' = b := by
  cases principal with
  | superuser =>
    cases h
    cases h'
    rfl
  | anonymous =>
    cases h
    cases h'
    rfl
  | user user =>
    by_cases hlisted : user ∈ a.settings.superusers
    · rw [isSuperuser_user_of_mem hlisted] at h
      rw [isSuperuser_user_of_mem (by rwa [hsettings])] at h'
      exact Except.ok.inj (h'.symm.trans h)
    · obtain ⟨e, he, rfl⟩ := (isSuperuser_user_eq_ok_iff hlisted).mp h
      obtain ⟨e', he', rfl⟩ := (isSuperuser_user_eq_ok_iff (by rwa [hsettings])).mp h'
      exact (hview.entity he he').isAdmin

theorem tellsNoMore_of_enriches (hview : a'.view.Enriches a.view a.settings.membershipName)
    (hsettings : a'.settings = a.settings) (hrules : a.view.rules.RemovesNothing)
    (principal : Principal) : a.TellsNoMore principal a' principal := by
  intro id s s' memo memo' h h'
  obtain ⟨b, hsuper⟩ := exists_isSuperuser h
  obtain ⟨b', hsuper'⟩ := exists_isSuperuser h'
  have hb := isSuperuser_of_enriches hview hsettings hsuper hsuper'
  subst hb
  cases b' with
  | true =>
    rw [eq_full_of_answer hsuper h, eq_full_of_answer hsuper' h']
    exact PermissionSet.le_refl _
  | false =>
    have hrules' : a'.view.rules.RemovesNothing := by rwa [hview.rules]
    refine le_of_keeps hrules hrules' hsuper hsuper' (fun x d d' hd hd' => ?_) h h'
    exact keeps_of_base hd hd' hview.rules hsettings
      (fun e e' he he' => (hview.entity he he').endpoints?)
      (fun l l' hl hl' => hview.incidents hl hl')
      fun members members' e e' s s' hm hm' he he' hb hb' =>
        .of_le (baseOf_le_of_enriches hview hsettings hrules hm hm' (hview.entity he he') hb hb')

/-- The anonymous principal is told of kinds only. -/
theorem le_full_of_answer_anonymous {s : PermissionSet} {memo : LocalMemo}
    (h : a.answer ∅ .anonymous id = .ok (s, memo)) : s ≤ .full := by
  obtain ⟨entry, hentry, rfl⟩ := exists_entries_of_answer_empty rfl h
  obtain ⟨d, hd⟩ := mem_iff_getElem?.mp (isComplete_of_entries hentry).mem
  obtain ⟨members, e, _, _, hof⟩ := exists_of_getElem?_derivations hd
  obtain ⟨_, hbase, _⟩ := Derivation.of_eq_ok_iff.mp hof
  have hfull : d.base ≤ .full := baseOf_anonymous_le_full hbase
  have hle := permissions_entries_le_union_full (isComplete_of_entries hentry) hd
  rw [Entries.permissions, hentry] at hle
  exact PermissionSet.le_trans hle (PermissionSet.union_le_iff.mpr ⟨hfull, PermissionSet.le_refl _⟩)

theorem keeps_anonymous {x : EntityId} {d d' : Derivation}
    (hd : (a.derivations .anonymous)[x]? = some d)
    (hd' : (a.derivations (.user user))[x]? = some d') : d'.Keeps d fun _ => False := by
  have hentity : ∀ {e e' : Entity}, a.view.entity? x = .ok (some e) →
      a.view.entity? x = .ok (some e') → e' = e :=
    fun he he' => Option.some_inj.mp (Except.ok.inj (he'.symm.trans he))
  refine keeps_of_base hd hd' rfl rfl (fun e e' he he' => ?_) (fun l l' hl hl' i hi => ?_)
    fun members members' e e' s s' _ _ he he' hb hb' => ?_
  · rw [hentity he he']
  · rwa [Except.ok.inj (hl'.symm.trans hl)]
  · rw [hentity he he'] at hb'
    exact .of_le (baseOf_anonymous_le hb hb')

theorem tellsNoMore_anonymous (hrules : a.view.rules.RemovesNothing) (user : EntityId) :
    a.TellsNoMore .anonymous a (.user user) := by
  intro id s s' memo memo' h h'
  obtain ⟨b, hsuper'⟩ := exists_isSuperuser h'
  cases b with
  | true =>
    rw [eq_full_of_answer hsuper' h']
    exact le_full_of_answer_anonymous h
  | false => exact le_of_keeps hrules hrules rfl hsuper' (fun _ _ _ => keeps_anonymous) h h'

/-- Under rules that take nothing away, no principal loses a kind when a graph is enriched, and
nobody who is known holds less than the anonymous principal. -/
theorem tellsNoMore (hrules : a.view.rules.RemovesNothing) :
    (∀ a' : Access ε, a'.view.Enriches a.view a.settings.membershipName →
      a'.settings = a.settings → ∀ principal, a.TellsNoMore principal a' principal) ∧
    ∀ user, a.TellsNoMore .anonymous a (.user user) :=
  ⟨fun _ hview hsettings => tellsNoMore_of_enriches hview hsettings hrules,
    tellsNoMore_anonymous hrules⟩

/-- A page that a group can read, linked to another, and a page that everyone can read. -/
def clubTables : Tables where
  entities := .ofList ([
    (⟨1⟩, .node "User"), (⟨2⟩, .node "Group"), (⟨10⟩, .node "Page"), (⟨11⟩, .node "Page"),
    (⟨12⟩, { Entity.node "Page" with visibility := .everyone }),
    (⟨20⟩, .relationship "Link" ⟨10⟩ ⟨11⟩), (⟨21⟩, .relationship "CONTAINS" ⟨2⟩ ⟨1⟩)] :
    List (EntityId × Entity))
  grants := ((∅ : Grants).grant ⟨2⟩ ⟨10⟩ (.single .read)).2
  rules := ((∅ : RuleBook).declare "CONTAINS" ⟨.outward, { read := .add, write := .add }⟩).declare
    "Link" ⟨.outward, { read := .add, write := .add }⟩

/-- The same with a grant to the group, a page that users can see, and links that close a cycle. -/
def openTables : Tables :=
  (((clubTables.addGrant ⟨2⟩ ⟨12⟩ (.single .write)).addVisibility ⟨11⟩
    .authenticated).addRelationship ⟨22⟩ "Link" ⟨11⟩ ⟨10⟩).addRelationship ⟨23⟩ "Link" ⟨12⟩ ⟨10⟩

theorem enriches_openTables : openTables.Enriches clubTables "CONTAINS" := by
  have hfree : clubTables.entities[(⟨22⟩ : EntityId)]? = none ∧
      clubTables.entities[(⟨23⟩ : EntityId)]? = none := by
    decide +kernel
  have hpages : ∀ id ∈ ([⟨10⟩, ⟨11⟩, ⟨12⟩] : List EntityId), id ∈ clubTables.entities := by
    decide +kernel
  have hseen := ((Tables.Enriches.refl clubTables "CONTAINS").addGrant ⟨2⟩ ⟨12⟩
    (.single .write)).addVisibility ⟨11⟩ .authenticated
  have hlinked := hseen.addRelationship hfree.1 (show "Link" ≠ "CONTAINS" by decide)
    (hpages ⟨11⟩ (by simp)) (hpages ⟨10⟩ (by simp))
  exact hlinked.addRelationship hfree.2 (by decide) (hpages _ (by simp)) (hpages _ (by simp))

def club : Access Unavailable := { view := clubTables.view, settings := {} }

def openClub : Access Unavailable := { view := openTables.view, settings := {} }

theorem tellsNoMore_club :
    (∃ memo memo', club.answer ∅ (.user ⟨1⟩) ⟨11⟩ = .ok (.single .read, memo) ∧
      openClub.answer ∅ (.user ⟨1⟩) ⟨11⟩ = .ok (.single .read ∪ .single .write, memo') ∧
      PermissionSet.single .read ≤ .single .read ∪ .single .write) ∧
    ∃ memo memo', club.answer ∅ .anonymous ⟨11⟩ = .ok (∅, memo) ∧
      club.answer ∅ (.user ⟨1⟩) ⟨11⟩ = .ok (.single .read, memo') ∧
      (∅ : PermissionSet) ≤ .single .read := by
  have hadds : ∀ k, Rule.effect ⟨.outward, { read := .add, write := .add }⟩ k ≠ .remove := by
    intro k
    cases k <;> decide
  have hrules : club.view.rules.RemovesNothing :=
    (RuleBook.removesNothing_empty.declare hadds "CONTAINS").declare hadds "Link"
  have hview : openClub.view.Enriches club.view club.settings.membershipName :=
    enriches_openTables.view (by decide +kernel)
  obtain ⟨hricher, hknown⟩ := tellsNoMore hrules
  have hanswers : (club.answer ∅ .anonymous ⟨11⟩).map Prod.fst = .ok ∅ ∧
      (club.answer ∅ (.user ⟨1⟩) ⟨11⟩).map Prod.fst = .ok (.single .read) ∧
      (openClub.answer ∅ (.user ⟨1⟩) ⟨11⟩).map Prod.fst =
        .ok (.single .read ∪ .single .write) := by
    decide +kernel
  obtain ⟨⟨s, memo⟩, hnobody, hs⟩ := exists_of_map_eq_ok hanswers.1
  obtain ⟨⟨s', memo'⟩, huser, hs'⟩ := exists_of_map_eq_ok hanswers.2.1
  obtain ⟨⟨s'', memo''⟩, hopen, hs''⟩ := exists_of_map_eq_ok hanswers.2.2
  subst hs hs' hs''
  exact ⟨⟨memo', memo'', huser, hopen, hricher openClub hview rfl _ _ _ _ _ _ huser hopen⟩,
    memo, memo', hnobody, huser, hknown _ _ _ _ _ _ hnobody huser⟩

end Access
end PermissionGraph
