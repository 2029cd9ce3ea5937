import PermissionGraph.Proofs.Access.Growth
import PermissionGraph.Proofs.Store.Lookups

/-!
# PermissionGraph.Proofs.Store.Joining

Joining a group, under rules that take nothing away. A transaction that makes a node a member of
another has one more relationship in its graph and all that was there before (`extends_link`). Still
a principal may hold less afterwards (`not_le_addMember_shortcut`): a group that has got nearer is
not reached over longer ways any more, and the kinds that those carried are bypassed. Nothing else
is lost (`leExcept_addMember`).
-/

namespace PermissionGraph

open Std

namespace Snapshot

variable {s : Snapshot} {id x source target : EntityId} {name : String}

theorem typeName_link_of_ne (h : id ≠ x) :
    (s.link id name source target).typeName x = s.typeName x :=
  typeName_congr (shape?_link_of_ne h)

theorem extends_link (h : s.Consistent) (hfree : s.entity? id = none) (hsource : s.IsNode source)
    (htarget : s.IsNode target) : (s.link id name source target).view.Extends s.view where
  rules := rfl
  granted _ _ := rfl
  entity {x e} he := by
    rw [view_entity_eq] at he ⊢
    rw [entity?_insert s (s.link id name source target) rfl, if_neg, he]
    rintro rfl
    rw [hfree] at he
    cases he
  incidents {x l} hl := by
    have h' : (s.link id name source target).Consistent :=
      consistent_link h hfree hsource htarget
    obtain ⟨l', hl'⟩ := exists_incidents h' x
    refine ⟨l', hl', fun i hi => ?_⟩
    obtain ⟨r, from', to', hlinks, hi⟩ := (mem_incidents_iff h hl).mp hi
    obtain ⟨hr, hfrom, hto⟩ := hlinks.ne_of_free h hfree
    refine (mem_incidents_iff h' hl').mpr ⟨r, from', to', (links_link hfree).mpr (.inl hlinks), ?_⟩
    rwa [typeName_link_of_ne hr, typeName_link_of_ne hfrom, typeName_link_of_ne hto]

end Snapshot

namespace Session

variable {s : Session} {settings : Settings} {name : String} {t : Transaction}
  {group member : EntityId}

theorem step_addMember (ht : s.transaction? name = some t) (hgroup : t.current.IsNode group)
    (hmember : t.current.IsNode member) :
    ∃ t', (s.step (.write name (.addMember group member))).1 =
        .written (.ok (.created s.db.freshId)) ∧
      (s.step (.write name (.addMember group member))).2.transaction? name = some t' ∧
      t'.current = t.current.link s.db.freshId s.db.settings.membershipName group member := by
  obtain ⟨e, he⟩ := Snapshot.exists_requireNode_iff.mpr hgroup
  obtain ⟨e', he'⟩ := Snapshot.exists_requireNode_iff.mpr hmember
  have hplan : t.current.planLink s.db.freshId s.db.settings.membershipName group member =
      .ok (some (t.current.link s.db.freshId s.db.settings.membershipName group member,
        [.relationship s.db.freshId group member])) := by
    simp [Snapshot.planLink, he, he']
  have hrun := Write.on_insertMember ⟨s.db, t⟩ group member
  rw [hplan] at hrun
  rw [step, ht]
  dsimp only
  rw [Write.run, Write.act, hrun]
  exact ⟨t.write _ _, rfl, ExtTreeMap.getElem?_insert_self, Transaction.current_write _ _ _⟩

/-- Whoever is not exempt from checks still holds what it held after a node was made a member of
another, but for kinds that are bypassed on the entity or on one from which they pass on to it. -/
theorem leExcept_addMember (settings : Settings) (requests : List Request)
    (ht : ((new settings).run requests).transaction? name = some t)
    (hrules : t.current.rules.RemovesNothing) (hgroup : t.current.IsNode group)
    (hmember : t.current.IsNode member) {principal : Principal}
    (hsuper : (t.current.access settings).isSuperuser principal = .ok false) {id : EntityId}
    {e : Entity} (he : t.current.entity? id = some e) :
    ∃ t' before after,
      (((new settings).run requests).step (.write name (.addMember group member))).1 =
        .written (.ok (.created ((new settings).run requests).db.freshId)) ∧
      ((new settings).run (requests ++ [.write name (.addMember group member)])).transaction? name =
        some t' ∧
      (t.ask ((new settings).run requests).db (·.permissions principal id)).1 = .ok before ∧
      (t'.ask ((new settings).run (requests ++ [.write name (.addMember group member)])).db
        (·.permissions principal id)).1 = .ok after ∧
      before.LeExcept after (((t.current.access settings).derivations principal).Loses
        ((t.current.access settings).Bypassed (t'.current.access settings) principal) id) := by
  have hsound := sound_run (sound_new settings) requests
  obtain ⟨t', hresponse, ht', hcurrent⟩ := step_addMember ht hgroup hmember
  rw [← run_concat] at ht'
  have hsound' := sound_run (sound_new settings)
    (requests ++ [.write name (.addMember group member)])
  obtain ⟨hfits, hbelow⟩ := hsound.fits ht
  have hs := hfits.sound.current
  have hs' := (hsound'.fits ht').1.sound.current
  have hext : (t'.current.access settings).view.Extends (t.current.access settings).view := by
    show t'.current.view.Extends t.current.view
    rw [hcurrent]
    exact Snapshot.extends_link hs hbelow.free hgroup hmember
  obtain ⟨entry, hentry⟩ := Derivations.exists_entries (hs.isComplete settings principal he)
  obtain ⟨entry', hentry', hle⟩ := Access.entries_of_extends hext rfl hrules hs'.available
    hs'.closed hentry
  have hsuper' := Access.isSuperuser_of_extends hext rfl hsuper
  refine ⟨t', entry.permissions, entry'.permissions, hresponse, ht', ?_, ?_, hle⟩
  · rw [hsound.permissions_eq ht]
    exact Access.answer_of_entries hsuper Access.trusts_empty hentry
  · rw [hsound'.permissions_eq ht']
    exact Access.answer_of_entries hsuper' Access.trusts_empty hentry'

/-- A user in a team that is in a group. Writing would reach users of the group directly, and
reading is granted to the group on a page. -/
def shortcut : List Request :=
  [.begin "main", .write "main" (.createNode "User"), .write "main" (.createNode "Team"),
    .write "main" (.createNode "Group"), .write "main" (.createNode "Page"),
    .write "main" (.addMember ⟨2⟩ ⟨1⟩), .write "main" (.addMember ⟨3⟩ ⟨2⟩),
    .write "main" (.declareRuleBetween ⟨"CONTAINS", "Group", "User"⟩ ⟨.outward, { write := .add }⟩),
    .write "main" (.grant ⟨3⟩ ⟨4⟩ (.single .read))]

/-- The user of the team becomes a user of the group. -/
def joining : Request := .write "main" (.addMember ⟨3⟩ ⟨1⟩)

theorem exists_transaction_shortcut : ∃ t,
    ((new {}).run shortcut).transaction? "main" = some t ∧ t.current.rules.RemovesNothing ∧
      t.current.IsNode ⟨3⟩ ∧ t.current.IsNode ⟨1⟩ ∧
      (t.current.access {}).isSuperuser (.user ⟨1⟩) = .ok false ∧
      t.current.entity? ⟨4⟩ = some (.node "Page") ∧
      (t.ask ((new {}).run shortcut).db (·.permissions (.user ⟨1⟩) ⟨4⟩)).1 =
        .ok (.single .read) := by
  obtain ⟨t, ht, hall⟩ := (Option.any_eq_true _ _).mp
    (show (((new {}).run shortcut).transaction? "main").any (fun t =>
      t.current.rules = (RuleBook.ofMembership "CONTAINS").declareBetween
          ⟨"CONTAINS", "Group", "User"⟩ ⟨.outward, { write := .add }⟩ ∧
        t.current.shape? ⟨3⟩ = some ("Group", .node) ∧
        t.current.shape? ⟨1⟩ = some ("User", .node) ∧
        (t.current.access {}).isSuperuser (.user ⟨1⟩) = .ok false ∧
        t.current.entity? ⟨4⟩ = some (.node "Page") ∧
        (t.ask ((new {}).run shortcut).db (·.permissions (.user ⟨1⟩) ⟨4⟩)).1 =
          .ok (.single .read)) = true by decide +kernel)
  obtain ⟨hrules, hgroup, huser, hsuper, hpage, hanswer⟩ := of_decide_eq_true hall
  refine ⟨t, ht, ?_, ⟨_, hgroup⟩, ⟨_, huser⟩, hsuper, hpage, hanswer⟩
  rw [hrules]
  exact (RuleBook.removesNothing_empty.declare (fun k => by cases k <;> decide) _).declareBetween
    (fun k => by cases k <;> decide) _

theorem exists_transaction_joining : ∃ t,
    ((new {}).run (shortcut ++ [joining])).transaction? "main" = some t ∧
      (t.ask ((new {}).run (shortcut ++ [joining])).db (·.permissions (.user ⟨1⟩) ⟨4⟩)).1 =
        .ok ∅ := by
  obtain ⟨t, ht, hanswer⟩ := (Option.any_eq_true _ _).mp
    (show (((new {}).run (shortcut ++ [joining])).transaction? "main").any (fun t =>
      (t.ask ((new {}).run (shortcut ++ [joining])).db (·.permissions (.user ⟨1⟩) ⟨4⟩)).1 =
        .ok ∅) = true by decide +kernel)
  exact ⟨t, ht, of_decide_eq_true hanswer⟩

/-- Joining takes reading away: the hop from the team to the group does not lead one step farther
any more, and the one that does passes nothing but writing on. -/
theorem not_le_addMember_shortcut : ∃ t t',
    ((new {}).run shortcut).transaction? "main" = some t ∧ t.current.rules.RemovesNothing ∧
      t.current.IsNode ⟨3⟩ ∧ t.current.IsNode ⟨1⟩ ∧
      (t.current.access {}).isSuperuser (.user ⟨1⟩) = .ok false ∧
      t.current.entity? ⟨4⟩ = some (.node "Page") ∧
      ((new {}).run (shortcut ++ [joining])).transaction? "main" = some t' ∧
      (t.ask ((new {}).run shortcut).db (·.permissions (.user ⟨1⟩) ⟨4⟩)).1 =
        .ok (.single .read) ∧
      (t'.ask ((new {}).run (shortcut ++ [joining])).db (·.permissions (.user ⟨1⟩) ⟨4⟩)).1 =
        .ok ∅ ∧
      ¬ PermissionSet.single .read ≤ ∅ := by
  obtain ⟨t, ht, hrules, hgroup, huser, hsuper, hpage, hanswer⟩ := exists_transaction_shortcut
  obtain ⟨t', ht', hanswer'⟩ := exists_transaction_joining
  have hnot : ¬ PermissionSet.single .read ≤ ∅ := fun hle =>
    Bool.false_ne_true (PermissionSet.single_le_iff.mp hle)
  exact ⟨t, t', ht, hrules, hgroup, huser, hsuper, hpage, ht', hanswer, hanswer', hnot⟩

theorem leExcept_addMember_shortcut : ∃ t t',
    ((new {}).run shortcut).transaction? "main" = some t ∧
      ((new {}).run (shortcut ++ [joining])).transaction? "main" = some t' ∧
      (PermissionSet.single .read).LeExcept ∅ (((t.current.access {}).derivations (.user ⟨1⟩)).Loses
        ((t.current.access {}).Bypassed (t'.current.access {}) (.user ⟨1⟩)) ⟨4⟩) := by
  obtain ⟨t, ht, hrules, hgroup, huser, hsuper, hpage, hanswer⟩ := exists_transaction_shortcut
  obtain ⟨t', ht', hanswer'⟩ := exists_transaction_joining
  obtain ⟨found, before, after, _, hfound, hbefore, hafter, hle⟩ :=
    leExcept_addMember {} shortcut ht hrules hgroup huser hsuper hpage
  have hsame : found = t' := Option.some_inj.mp (hfound.symm.trans ht')
  subst hsame
  have hread : before = .single .read := Except.ok.inj (hbefore.symm.trans hanswer)
  have hempty : after = ∅ := Except.ok.inj (hafter.symm.trans hanswer')
  subst hread hempty
  exact ⟨t, found, ht, ht', hle⟩

end Session
end PermissionGraph
