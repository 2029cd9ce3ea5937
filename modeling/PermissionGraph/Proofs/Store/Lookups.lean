import PermissionGraph.Proofs.Access.Available
import PermissionGraph.Proofs.Store.Coherence

/-!
# PermissionGraph.Proofs.Store.Lookups

Looking things up in the graph of a consistent snapshot. No look-up fails, and none leads out of
the graph.

* `mem_incidents_iff`: what touches an entity is what some relationship with it causes.
* `Consistent.available`, `Consistent.closed`: the graph is available and closed.
* `answer_empty_eq_error_iff`, `permissions_run_eq_error_iff`: a question for permissions fails
  where the user or the entity asked about does not exist, and nowhere else.
-/

namespace PermissionGraph

open Std

namespace Snapshot

variable {s : Snapshot} {settings : Settings} {principal : Principal}
  {id r source target : EntityId} {i : Incident} {l : List Incident}
  {cause : AccessError StoreError}

/-! ## Relationships -/

theorem mem_of_mapM_incidentsOf {ids : List EntityId} {found : List (List Incident)}
    (h : ids.mapM (s.incidentsOf id) = .ok found) :
    i ∈ found.flatten ↔ ∃ r ∈ ids, ∃ caused, s.incidentsOf id r = .ok caused ∧ i ∈ caused := by
  induction ids generalizing found with
  | nil =>
    injection h with h
    subst h
    simp
  | cons r ids ih =>
    obtain ⟨first, rest, hfirst, hrest, rfl⟩ := mapM_cons_eq_ok_iff.mp h
    rw [List.flatten_cons, List.mem_append, ih hrest]
    simp [hfirst]

/-- What touches an entity of a consistent snapshot is what the relationships with it cause. -/
theorem mem_incidents_iff (h : s.Consistent) (hl : s.incidents id = .ok l) :
    i ∈ l ↔ ∃ r source target, s.Links r source target ∧
      i ∈ Incident.ofRelationship id r ⟨s.typeName r, s.typeName source, s.typeName target⟩
        source target := by
  rw [incidents] at hl
  obtain ⟨found, hfound, hflat⟩ := bind_eq_ok_iff.mp hl
  rw [pure_eq_ok_iff.mp hflat, mem_of_mapM_incidentsOf hfound]
  constructor
  · rintro ⟨r, hr, caused, hcaused, hi⟩
    obtain ⟨source, target, hlinks, _⟩ := h.mem_touching.mp hr
    rw [incidentsOf_of_links hlinks] at hcaused
    injection hcaused with hcaused
    exact ⟨r, source, target, hlinks, hcaused ▸ hi⟩
  · rintro ⟨r, source, target, hlinks, hi⟩
    refine ⟨r, h.mem_touching.mpr ⟨source, target, hlinks, ?_⟩, _, incidentsOf_of_links hlinks id,
      hi⟩
    rcases Incident.mem_ofRelationship.mp hi with ⟨hsource, _⟩ | ⟨htarget, _⟩
    · exact .inl hsource.symm
    · exact .inr htarget.symm

theorem Consistent.isNode_other (h : s.Consistent) (hl : s.incidents id = .ok l) (hi : i ∈ l) :
    s.IsNode i.other := by
  obtain ⟨r, source, target, hlinks, hends⟩ := (mem_incidents_iff h hl).mp hi
  rcases Incident.mem_ofRelationship.mp hends with ⟨_, rfl⟩ | ⟨_, rfl⟩
  · exact (h.ends hlinks).2
  · exact (h.ends hlinks).1

/-! ## The graph -/

theorem Consistent.available (h : s.Consistent) : s.view.Available where
  entity id := ⟨s.entity? id, rfl⟩
  incidents id := exists_incidents h id
  granted principal id := ⟨s.grants.lookup principal id, rfl⟩

theorem view_entity_eq {e : Entity} : s.view.entity? id = .ok (some e) ↔ s.entity? id = some e := by
  show Except.ok (s.entity? id) = .ok (some e) ↔ _
  rw [Except.ok.injEq]

theorem Consistent.closed (h : s.Consistent) : s.view.Closed := by
  have hends : ∀ {r source target : EntityId}, s.Links r source target →
      (∃ e, s.view.entity? source = .ok (some e)) ∧ ∃ e, s.view.entity? target = .ok (some e) := by
    intro r source target hlinks
    obtain ⟨hsource, htarget⟩ := h.ends hlinks
    obtain ⟨e, he⟩ := hsource.exists_entity
    obtain ⟨e', he'⟩ := htarget.exists_entity
    exact ⟨⟨e, view_entity_eq.mpr he⟩, e', view_entity_eq.mpr he'⟩
  constructor
  · intro id e source target he hends'
    exact (hends (links_of_kind (view_entity_eq.mp he) (Entity.endpoints?_eq_some_iff.mp hends'))).1
  · intro id e source target he hends'
    exact (hends (links_of_kind (view_entity_eq.mp he) (Entity.endpoints?_eq_some_iff.mp hends'))).2
  · intro id l i hl hi
    obtain ⟨e, he⟩ := (h.isNode_other hl hi).exists_entity
    exact ⟨e, view_entity_eq.mpr he⟩

theorem Consistent.isComplete (h : s.Consistent) (settings : Settings) (principal : Principal)
    {e : Entity} (he : s.entity? id = some e) :
    ((s.access settings).derivations principal).IsComplete id :=
  Access.isComplete_of_exists h.available fun _ hr =>
    Access.exists_of_reaches h.closed ⟨e, view_entity_eq.mpr he⟩ hr

/-! ## Errors -/

theorem entity_access_eq_error_iff : (s.access settings).entity id = .error cause ↔
    s.entity? id = none ∧ cause = .entityNotFound id := by
  have hview : (s.access settings).view.entity? id = .ok (s.entity? id) := rfl
  rw [Access.entity, hview]
  cases s.entity? id <;> simp [eq_comm]

/-- A user that is asked for is known neither to the settings nor to the graph. -/
def Unknown (s : Snapshot) (settings : Settings) (principal : Principal) (user : EntityId) : Prop :=
  principal = .user user ∧ user ∉ settings.superusers ∧ s.entity? user = none

theorem isSuperuser_eq_error_iff : (s.access settings).isSuperuser principal = .error cause ↔
    ∃ user, s.Unknown settings principal user ∧ cause = .entityNotFound user := by
  cases principal with
  | superuser => simp [Access.isSuperuser, Unknown]
  | anonymous => simp [Access.isSuperuser, Unknown]
  | user user =>
    have hsettings : (s.access settings).settings = settings := rfl
    by_cases hlisted : user ∈ settings.superusers
    · simp [Access.isSuperuser, Unknown, hsettings, hlisted]
    · have hcases : (s.access settings).isSuperuser (.user user) = .error cause ↔
          (s.access settings).entity user = .error cause := by
        rw [Access.isSuperuser, hsettings, if_neg hlisted]
        cases (s.access settings).entity user <;> simp
      rw [hcases, entity_access_eq_error_iff]
      simp [Unknown, hlisted]

theorem resolve_empty_of_missing (h : s.Consistent) (hid : s.entity? id = none) :
    ((s.access settings).resolve principal id).outcome ∅ = .error (.entityNotFound id) := by
  obtain ⟨members, hm⟩ := Access.exists_members (a := s.access settings) h.available.incidents
    principal
  have hsettle : Discovery.settle (fun _ => none) [id] ∅ = ([id], ∅) := by
    have hempty : (∅ : Discovery).derivations = ∅ ∧ (∅ : Discovery).remembered = ∅ := ⟨rfl, rfl⟩
    simp [Discovery.settle, Discovery.contains, hempty]
  have hderive : Discovery.derive s.view settings members principal id =
      .error (.entityNotFound id) := by
    have hview : s.view.entity? id = .ok none := congrArg Except.ok hid
    rw [Discovery.derive, hview]
  rw [Access.resolve_eq_error_iff, Access.discover_eq hm, Access.recalled_empty, Discovery.explore,
    Discovery.walk, hsettle]
  show Discovery.derive s.view settings members principal id >>= _ = _
  rw [hderive]
  rfl

theorem exists_answer_empty (h : s.Consistent) {exempt : Bool}
    (hsuper : (s.access settings).isSuperuser principal = .ok exempt) {e : Entity}
    (he : s.entity? id = some e) : ∃ r, (s.access settings).answer ∅ principal id = .ok r := by
  cases exempt with
  | true =>
    cases hentity : (s.access settings).entity id with
    | error cause =>
      rw [(entity_access_eq_error_iff.mp hentity).1] at he
      cases he
    | ok e => exact ⟨(.full, ∅), by rw [Access.answer_eq, hsuper, hentity]⟩
  | false =>
    obtain ⟨entry, hentry⟩ := Derivations.exists_entries (h.isComplete settings principal he)
    obtain ⟨memo, hanswer, _⟩ := Access.exists_answer_empty hsuper hentry
    exact ⟨_, hanswer⟩

theorem answer_empty_of_missing (h : s.Consistent) {exempt : Bool}
    (hsuper : (s.access settings).isSuperuser principal = .ok exempt) (hid : s.entity? id = none) :
    (s.access settings).answer ∅ principal id = .error (.entityNotFound id) := by
  cases exempt with
  | true =>
    have hentity : (s.access settings).entity id = .error (.entityNotFound id) :=
      entity_access_eq_error_iff.mpr ⟨hid, rfl⟩
    rw [Access.answer_eq, hsuper, hentity]
  | false => rw [Access.answer_empty_eq_resolve hsuper, resolve_empty_of_missing h hid]

/-- What a question for permissions fails with: the user is missed first, then what is asked
about. -/
theorem answer_empty_eq_error_iff (h : s.Consistent) :
    ((s.access settings).answer ∅ principal id).map Prod.fst = .error cause ↔
      (∃ user, s.Unknown settings principal user ∧ cause = .entityNotFound user) ∨
        (¬ ∃ user, s.Unknown settings principal user) ∧
          s.entity? id = none ∧ cause = .entityNotFound id := by
  cases hsuper : (s.access settings).isSuperuser principal with
  | error found =>
    obtain ⟨user, hunknown, hfound⟩ := isSuperuser_eq_error_iff.mp hsuper
    have hanswer : (s.access settings).answer ∅ principal id = .error found := by
      rw [Access.answer_eq, hsuper]
    rw [hanswer, hfound]
    constructor
    · intro hcause
      injection hcause with hcause
      exact .inl ⟨user, hunknown, hcause.symm⟩
    · rintro (⟨user', hunknown', hcause⟩ | ⟨hno, _⟩)
      · have huser : user' = user := by
          have hprincipal := hunknown'.1.symm.trans hunknown.1
          injection hprincipal
        rw [hcause, huser]
        rfl
      · exact absurd ⟨user, hunknown⟩ hno
  | ok exempt =>
    have hno : ¬ ∃ user, s.Unknown settings principal user := by
      rintro ⟨user, hunknown⟩
      rw [isSuperuser_eq_error_iff.mpr ⟨user, hunknown, rfl⟩] at hsuper
      cases hsuper
    cases he : s.entity? id with
    | none =>
      rw [answer_empty_of_missing h hsuper he]
      constructor
      · intro hcause
        injection hcause with hcause
        exact .inr ⟨hno, rfl, hcause.symm⟩
      · rintro (⟨user, hunknown, _⟩ | ⟨_, _, hcause⟩)
        · exact absurd ⟨user, hunknown⟩ hno
        · rw [hcause]
          rfl
    | some e =>
      obtain ⟨r, hr⟩ := exists_answer_empty h hsuper he
      rw [hr]
      constructor
      · intro hcause
        cases hcause
      · rintro (⟨user, hunknown, _⟩ | ⟨_, hnone, _⟩)
        · exact absurd ⟨user, hunknown⟩ hno
        · cases hnone

end Snapshot

namespace Session

/-- Whatever was deleted, and whatever memos hold: asking an open transaction for permissions fails
because the user is neither exempt by the settings nor in the graph or, failing that, because what
is asked about is not there. The error names the one that is missed. -/
theorem permissions_run_eq_error_iff (settings : Settings) (requests : List Request) {name : String}
    {t : Transaction} (h : ((new settings).run requests).transaction? name = some t)
    (principal : Principal) (id : EntityId) (cause : AccessError StoreError) :
    (t.ask ((new settings).run requests).db (·.permissions principal id)).1 = .error cause ↔
      (∃ user, t.current.Unknown settings principal user ∧ cause = .entityNotFound user) ∨
        (¬ ∃ user, t.current.Unknown settings principal user) ∧
          t.current.entity? id = none ∧ cause = .entityNotFound id := by
  have hsound := sound_run (sound_new settings) requests
  rw [hsound.permissions_eq h]
  exact Snapshot.answer_empty_eq_error_iff (hsound.fits h).1.sound.current

/-- A user and a page, both asked about before one transaction deletes the page and its group, and
the next the user. -/
def demise : List Request :=
  [.begin "setup", .write "setup" (.createNode "User"), .write "setup" (.createNode "Group"),
    .write "setup" (.createNode "Page"), .write "setup" (.addMember ⟨2⟩ ⟨1⟩),
    .write "setup" (.grant ⟨2⟩ ⟨3⟩ .full), .commit "setup",
    .begin "first", .question "first" (.permissions (.user ⟨1⟩) ⟨3⟩),
    .write "first" (.deleteEntity ⟨2⟩), .write "first" (.deleteEntity ⟨3⟩), .commit "first",
    .begin "second", .question "second" (.permissions (.user ⟨1⟩) ⟨1⟩),
    .write "second" (.deleteEntity ⟨1⟩), .begin "reader"]

theorem permissions_run_eq_error_iff_demise :
    ∃ reader writer, ((new {}).run demise).transaction? "reader" = some reader ∧
      ((new {}).run demise).transaction? "second" = some writer ∧
      (reader.ask ((new {}).run demise).db (·.permissions (.user ⟨1⟩) ⟨3⟩)).1 =
        .error (.entityNotFound ⟨3⟩) ∧
      (writer.ask ((new {}).run demise).db (·.permissions (.user ⟨1⟩) ⟨3⟩)).1 =
        .error (.entityNotFound ⟨1⟩) := by
  obtain ⟨reader, hreader, hfound⟩ := (Option.any_eq_true _ _).mp
    (show (((new {}).run demise).transaction? "reader").any (fun t =>
      (t.current.entity? ⟨1⟩).isSome ∧ t.current.entity? ⟨3⟩ = none) = true by decide +kernel)
  obtain ⟨writer, hwriter, hgone⟩ := (Option.any_eq_true _ _).mp
    (show (((new {}).run demise).transaction? "second").any (fun t =>
      t.current.entity? ⟨1⟩ = none) = true by decide +kernel)
  obtain ⟨huser, hpage⟩ := of_decide_eq_true hfound
  have hknown : ¬ ∃ user, reader.current.Unknown {} (.user ⟨1⟩) user := by
    rintro ⟨user, hprincipal, _, hnone⟩
    injection hprincipal with hprincipal
    rw [← hprincipal] at hnone
    rw [hnone] at huser
    cases huser
  exact ⟨reader, writer, hreader, hwriter,
    (permissions_run_eq_error_iff {} demise hreader _ _ _).mpr (.inr ⟨hknown, hpage, rfl⟩),
    (permissions_run_eq_error_iff {} demise hwriter _ _ _).mpr
      (.inl ⟨⟨1⟩, ⟨rfl, by decide +kernel, of_decide_eq_true hgone⟩, rfl⟩)⟩

end Session
end PermissionGraph
