import PermissionGraph.Proofs.Store.Coherence

/-!
# PermissionGraph.Proofs.Store.ChangeLog

The list of changes of a transaction leaves nothing out. What the snapshot of a transaction says
differently of an entity than the one it began with, in its record, its relationships or the grants
on it, is told of by a change that touches the entity (`Transaction.TellsAll`). So a transaction
without changes is one that altered nothing, and a commit that only hands over its memo loses
nothing (`tellsAll_run`).
-/

namespace PermissionGraph

open Snapshot

namespace Transaction

variable {t : Transaction} {db : Database} {settings : Settings} {x : EntityId}

/-- A change in the list of a transaction touches an entity. -/
def Touches (t : Transaction) (x : EntityId) : Prop := ∃ c ∈ t.changes, x ∈ c.touched

/-- The changes of a transaction tell of all that sets its snapshot apart from the one it began
with. -/
structure TellsAll (t : Transaction) : Prop where
  entity : ∀ x, t.base.entity? x ≠ t.current.entity? x → t.Touches x
  incidents : ∀ x, t.base.incidents x ≠ t.current.incidents x → t.Touches x
  grants : ∀ x q, t.base.grants.lookup q x ≠ t.current.grants.lookup q x → t.Touches x
  rules : t.base.rules ≠ t.current.rules → .rules ∈ t.changes
  unchanged : t.changes = [] → t.current = t.base

theorem Sound.agreeOn (h : t.Sound settings) (hx : ¬ t.Touches x) :
    t.base.view.AgreeOn t.current.view x :=
  h.accounts.agree x fun c hc hxc => hx ⟨c, hc, hxc⟩

theorem Sound.tellsAll (h : t.Sound settings) : t.TellsAll where
  entity x hne := by
    by_contra hx
    have hentity := (h.agreeOn hx).entity
    injection hentity with hentity
    exact hne hentity
  incidents x hne := by
    by_contra hx
    exact hne (h.agreeOn hx).incidents
  grants x q hne := by
    by_contra hx
    have hgranted := (h.agreeOn hx).granted q
    injection hgranted with hgranted
    exact hne hgranted
  rules hne := by
    by_contra hrules
    refine hne (h.accounts.rules fun c hc => ?_)
    rw [← Bool.not_eq_true, Change.affectsAll_iff]
    rintro rfl
    exact hrules hc
  unchanged := h.unchanged

end Transaction

namespace Session

variable {name : String} {t : Transaction}

/-- Whatever has been requested of a session, the changes of an open transaction tell of all that it
has altered; and if there are none, a commit leaves the store with the snapshot that it has, which
is that of the transaction unless another was committed since. -/
theorem tellsAll_run (settings : Settings) (requests : List Request)
    (h : ((new settings).run requests).transaction? name = some t) :
    t.TellsAll ∧ (t.changes = [] →
      (((new settings).run requests).db.commit t).1 = .ok t.base.version ∧
      (((new settings).run requests).db.commit t).2.committed =
        ((new settings).run requests).db.committed ∧
      (t.base.version = ((new settings).run requests).db.version →
        ((new settings).run requests).db.committed = t.current)) := by
  obtain ⟨hfits, _⟩ := (sound_run (sound_new settings) requests).fits h
  have htells := hfits.sound.tellsAll
  refine ⟨htells, fun hnil => ?_⟩
  rw [Database.commit_of_unchanged _ hnil]
  refine ⟨rfl, rfl, fun hversion => ?_⟩
  rw [htells.unchanged hnil]
  exact (hfits.eq hversion).symm

/-- A node is deleted that has a relationship to itself and one to another node, and a grant on a
third; in the same transaction a node comes and goes, and a rule is declared. -/
def demolition : List Request :=
  [.begin "setup", .write "setup" (.createNode "User"), .write "setup" (.createNode "Page"),
    .write "setup" (.createNode "Page"), .write "setup" (.createRelationship "Link" ⟨1⟩ ⟨2⟩),
    .write "setup" (.createRelationship "Link" ⟨1⟩ ⟨1⟩),
    .write "setup" (.grant ⟨1⟩ ⟨3⟩ (.single .read)), .commit "setup",
    .begin "open", .write "open" (.deleteEntity ⟨1⟩), .write "open" (.createNode "Page"),
    .write "open" (.deleteEntity ⟨6⟩),
    .write "open" (.declareRule "Link" ⟨.outward, { read := .add }⟩)]

theorem tellsAll_run_demolition :
    ∃ t, ((new {}).run demolition).transaction? "open" = some t ∧ t.TellsAll ∧
      t.Touches ⟨2⟩ ∧ t.Touches ⟨3⟩ ∧ .rules ∈ t.changes := by
  obtain ⟨t, ht⟩ := Option.isSome_iff_exists.mp
    (show (((new {}).run demolition).transaction? "open").isSome = true by decide +kernel)
  have htells := (tellsAll_run {} demolition ht).1
  have hdiffers : ∀ t ∈ ((new {}).run demolition).transaction? "open",
      t.base.incidents ⟨2⟩ ≠ t.current.incidents ⟨2⟩ ∧
        t.base.grants.lookup ⟨1⟩ ⟨3⟩ ≠ t.current.grants.lookup ⟨1⟩ ⟨3⟩ ∧
        t.base.rules ≠ t.current.rules := by
    decide +kernel
  obtain ⟨hincidents, hgrants, hrules⟩ := hdiffers t ht
  exact ⟨t, ht, htells, htells.incidents ⟨2⟩ hincidents, htells.grants ⟨3⟩ ⟨1⟩ hgrants,
    htells.rules hrules⟩

end Session
end PermissionGraph
