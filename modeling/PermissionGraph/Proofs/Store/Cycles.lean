import PermissionGraph.Proofs.Store.Coherence

/-!
# PermissionGraph.Proofs.Store.Cycles

Cycles are remembered as a whole or not at all. Two entities are on a common cycle for a principal
(`Access.OnCommonCycle`) when the permissions on each hang, over one or more inputs, on those on the
other. A walk that begins anywhere on a cycle derives all of it, since nothing of it is remembered
(`Access.trusted_keep`); its members rest on the same entities, so a change drops all of them or
none (`Trusted.filter`); and what is taken over from another memo is whole as well (`Trusted.or`).

* `keepsCycles_of_trusted`: a memo that can be trusted keeps cycles whole.
* `cycles_run`: so do the memos of open transactions and the shared memo, whatever was requested.
-/

namespace PermissionGraph

open Std Derivations

variable {ε : Type}

namespace Access

variable {a : Access ε} {principal : Principal} {x y : EntityId}
  {held : MemoKey → Option MemoEntry}

/-- The permissions on an entity hang directly on those on another: as it is read off the graph, the
derivation has an input that carries them. -/
def HangsOn (a : Access ε) (principal : Principal) (x y : EntityId) : Prop :=
  ∃ members d, a.members principal = .ok members ∧
    Discovery.derive a.view a.settings members principal x = .ok d ∧ y ∈ d.origins

/-- The permissions on each of two entities hang on those on the other. -/
def OnCommonCycle (a : Access ε) (principal : Principal) (x y : EntityId) : Prop :=
  Relation.TransGen (a.HangsOn principal) x y ∧ Relation.TransGen (a.HangsOn principal) y x

theorem hangsOn_iff : a.HangsOn principal x y ↔ (a.derivations principal).Draws x y := by
  constructor
  · rintro ⟨members, d, hm, hd, hy⟩
    exact ⟨d, (isTableOf_derivations hm x d).mpr hd, hy⟩
  · rintro ⟨d, hd, hy⟩
    obtain ⟨members, hm⟩ := exists_members_of_mem (mem_of_getElem? hd)
    exact ⟨members, d, hm, (isTableOf_derivations hm x d).mp hd, hy⟩

theorem reaches_of_transGen (h : Relation.TransGen (a.HangsOn principal) x y) :
    (a.derivations principal).Reaches x y := by
  induction h with
  | single hxy => exact (hangsOn_iff.mp hxy).reaches
  | tail _ hbc ih => exact ih.trans (hangsOn_iff.mp hbc).reaches

theorem OnCommonCycle.tied (h : a.OnCommonCycle principal x y) :
    (a.derivations principal).Tied x y :=
  ⟨reaches_of_transGen h.1, reaches_of_transGen h.2⟩

theorem OnCommonCycle.symm (h : a.OnCommonCycle principal x y) : a.OnCommonCycle principal y x :=
  ⟨h.2, h.1⟩

/-- What is held of the entities of a graph, under keys, is held of cycles as a whole. -/
structure KeepsCycles (a : Access ε) (held : MemoKey → Option MemoEntry) : Prop where
  /-- There are entries for both of two entities on a common cycle, or for neither. -/
  whole : ∀ {principal x y}, a.OnCommonCycle principal x y →
    ((∃ e, held ⟨principal, x⟩ = some e) ↔ ∃ f, held ⟨principal, y⟩ = some f)
  /-- Both entries rest on the same entities. -/
  alike : ∀ {principal x y e f}, a.OnCommonCycle principal x y →
    held ⟨principal, x⟩ = some e → held ⟨principal, y⟩ = some f → e.dependsOn = f.dependsOn

theorem keepsCycles_of_trusted
    (h : ∀ principal, Trusted (a.derivations principal) fun id => held ⟨principal, id⟩) :
    a.KeepsCycles held where
  whole {principal x y} hcycle := by
    constructor
    · rintro ⟨e, he⟩
      exact (h principal).whole he hcycle.tied
    · rintro ⟨f, hf⟩
      exact (h principal).whole hf hcycle.symm.tied
  alike {principal x y e f} hcycle he hf := by
    obtain ⟨e', he', hdep⟩ := dependsOn_eq_of_tied ((h principal).correct hf) hcycle.symm.tied
    rw [(h principal).correct he] at he'
    cases he'
    exact hdep

end Access

namespace Session

/-- Whatever is requested of a session, the memo of an open transaction keeps the cycles of its
snapshot whole, and the shared memo those of the committed one. So does what a transaction reads of
both, hence no walk ever comes upon a part of a cycle. -/
theorem cycles_run (settings : Settings) (requests : List Request) :
    (∀ name t, ((new settings).run requests).transaction? name = some t →
      (t.current.access settings).KeepsCycles t.memo.memo.get? ∧
        (t.current.access settings).KeepsCycles
          (t.memo.get? ((new settings).run requests).db.shared)) ∧
      (((new settings).run requests).db.committed.access settings).KeepsCycles
        ((new settings).run requests).db.shared.memo.get? := by
  have hsound := sound_run (sound_new settings) requests
  generalize (new settings).run requests = s at hsound
  obtain rfl := hsound.settings
  refine ⟨fun name t ht => ?_, Access.keepsCycles_of_trusted hsound.db.memo⟩
  obtain ⟨hfits, _⟩ := hsound.fits ht
  have hcoherent := hfits.coherent hsound.db
  have hrecalled : ∀ principal, Trusted ((t.current.access s.db.settings).derivations principal)
      fun id => t.memo.get? s.db.shared ⟨principal, id⟩ := fun principal => hcoherent.trusts
  exact ⟨Access.keepsCycles_of_trusted hfits.sound.memo, Access.keepsCycles_of_trusted hrecalled⟩

/-- A page is read over a link and remembered. Then a link back closes a cycle through both pages,
and reading is asked for again, before the commit and in a transaction after it. -/
def closing : List Request :=
  [.begin "setup", .write "setup" (.createNode "User"), .write "setup" (.createNode "Page"),
    .write "setup" (.createNode "Page"), .write "setup" (.createRelationship "Link" ⟨2⟩ ⟨3⟩),
    .write "setup" (.declareRule "Link" ⟨.outward, { read := .add }⟩),
    .write "setup" (.grant ⟨1⟩ ⟨2⟩ (.single .read)), .commit "setup", .begin "reader",
    .question "reader" (.permissions (.user ⟨1⟩) ⟨3⟩), .commit "reader", .begin "writer",
    .question "writer" (.permissions (.user ⟨1⟩) ⟨3⟩),
    .write "writer" (.createRelationship "Link" ⟨3⟩ ⟨2⟩),
    .question "writer" (.permissions (.user ⟨1⟩) ⟨2⟩), .commit "writer", .begin "later",
    .write "later" (.createNode "Page"), .question "later" (.permissions (.user ⟨1⟩) ⟨3⟩)]

theorem cycles_run_closing :
    ∃ later e f, ((new {}).run closing).transaction? "later" = some later ∧
      (later.current.access {}).OnCommonCycle (.user ⟨1⟩) ⟨2⟩ ⟨3⟩ ∧
      later.memo.memo.get? ⟨.user ⟨1⟩, ⟨2⟩⟩ = some e ∧
      later.memo.memo.get? ⟨.user ⟨1⟩, ⟨3⟩⟩ = some f ∧ e.dependsOn = f.dependsOn ∧
      f.dependsOn.toList = [⟨1⟩, ⟨2⟩, ⟨3⟩] := by
  obtain ⟨later, hlater, hfacts⟩ := (Option.any_eq_true _ _).mp
    (show (((new {}).run closing).transaction? "later").any (fun t =>
      (((t.current.access {}).derivations (.user ⟨1⟩))[(⟨2⟩ : EntityId)]?.map Derivation.origins) =
        some [⟨3⟩] ∧
      (((t.current.access {}).derivations (.user ⟨1⟩))[(⟨3⟩ : EntityId)]?.map Derivation.origins) =
        some [⟨2⟩] ∧
      (t.memo.memo.get? ⟨.user ⟨1⟩, ⟨3⟩⟩).map (·.dependsOn.toList) = some [⟨1⟩, ⟨2⟩, ⟨3⟩]) = true
      by decide +kernel)
  obtain ⟨htwo, hthree, hentry⟩ := of_decide_eq_true hfacts
  obtain ⟨d, hd, hdorigins⟩ := Option.map_eq_some_iff.mp htwo
  obtain ⟨d', hd', hdorigins'⟩ := Option.map_eq_some_iff.mp hthree
  obtain ⟨f, hf, hfdep⟩ := Option.map_eq_some_iff.mp hentry
  have hcycle : (later.current.access {}).OnCommonCycle (.user ⟨1⟩) ⟨2⟩ ⟨3⟩ :=
    ⟨.single (Access.hangsOn_iff.mpr ⟨d, hd, by simp [hdorigins]⟩),
      .single (Access.hangsOn_iff.mpr ⟨d', hd', by simp [hdorigins']⟩)⟩
  obtain ⟨hkeeps, _⟩ := (cycles_run {} closing).1 "later" later hlater
  obtain ⟨e, he⟩ := (hkeeps.whole hcycle).mpr ⟨f, hf⟩
  exact ⟨later, e, f, hlater, hcycle, he, hf, hkeeps.alike hcycle he hf, hfdep⟩

end Session
end PermissionGraph
