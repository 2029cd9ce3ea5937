import PermissionGraph.Proofs.Store.Lifetimes
import Mathlib.Data.List.Induction

/-!
# PermissionGraph.Proofs.Store.Ownership

Who owns what. Only a node can be made an owner, and no write but its own deletion takes a node away
(`Snapshot.Inherits`). Deleting a node leaves what it owned with an owner that is gone, so this is
the one way in which an owner can be missing: an owner either is a node of the snapshot or has been
deleted, and then nothing else ever takes its place.

* `inherits_run`: what a write does to nodes and owners.
* `shows_step`: what a request does to the snapshots of a session.
* `ownership_run`: what is known of an owner, whatever has been requested.
-/

namespace PermissionGraph

open Std

namespace Snapshot

variable {s s' : Snapshot} {id x : EntityId} {e : Entity} {gone : Option EntityId}
  {changes : List Change}

/-- A snapshot that came out of another by a write. A node is still there, unless it is the one that
is deleted. Whoever owns an entity did so before or is a node. -/
structure Inherits (s s' : Snapshot) (gone : Option EntityId) : Prop where
  isNode : ∀ {x : EntityId}, s.IsNode x → s'.IsNode x ∨ gone = some x ∧ s'.entity? x = none
  owner : ∀ {x : EntityId} {e : Entity} {owner : EntityId}, s'.entity? x = some e →
    e.owner = some owner →
      (∃ e', s.entity? x = some e' ∧ e'.owner = some owner) ∨ s'.IsNode owner

theorem inherits_of_entities (h : s'.entities = s.entities) : s.Inherits s' gone where
  isNode {x} hx := by
    have hshape : s'.shape? x = s.shape? x := by rw [shape?, shape?, entity?, entity?, h]
    exact .inl ((isNode_congr hshape).mpr hx)
  owner {x e owner} he howner := by
    rw [entity?, h] at he
    exact .inl ⟨e, he, howner⟩

theorem inherits_insert (h : s'.entities = s.entities.insert id e)
    (hkind : s.IsNode id → e.kind = .node)
    (howner : ∀ owner, e.owner = some owner →
      (∃ e', s.entity? id = some e' ∧ e'.owner = some owner) ∨ s'.IsNode owner) :
    s.Inherits s' gone where
  isNode {x} hx := by
    by_cases hid : id = x
    · subst hid
      refine .inl ⟨e.typeName, ?_⟩
      rw [shape?_insert h, if_pos rfl, hkind hx]
    · refine .inl ((isNode_congr ?_).mpr hx)
      rw [shape?_insert h, if_neg hid]
  owner {x found owner} hfound hown := by
    rw [entity?_insert s s' h] at hfound
    split at hfound
    · next hid =>
      injection hfound with hfound
      rw [← hfound] at hown
      exact hid ▸ howner owner hown
    · exact .inl ⟨found, hfound, hown⟩

theorem inherits_insertNode {name : String} : s.Inherits (s.insertNode id name) gone :=
  inherits_insert (e := .node name) rfl (fun _ => rfl) nofun

theorem inherits_link {name : String} {source target : EntityId} (hfree : s.entity? id = none) :
    s.Inherits (s.link id name source target) gone :=
  inherits_insert (s := s) (e := .relationship name source target) rfl
    (fun hnode => absurd rfl (hnode.ne_of_free hfree)) nofun

theorem inherits_modifyEntity {f : Entity → Entity} (he : s.entity? id = some e)
    (hkind : (f e).kind = e.kind)
    (howner : ∀ owner, (f e).owner = some owner → e.owner = some owner ∨ s.IsNode owner) :
    s.Inherits { s with entities := s.entities.insert id (f e) } gone := by
  have hnode : s.IsNode id → (f e).kind = .node := by
    rintro ⟨name, hname⟩
    rw [shape_of_entity he] at hname
    injection hname with hname
    injection hname with _ hnode
    rw [hkind, hnode]
  have hinherits : ∀ {y}, s.IsNode y →
      IsNode { s with entities := s.entities.insert id (f e) } y := by
    intro y hy
    by_cases hid : id = y
    · subst hid
      exact ⟨(f e).typeName, by rw [shape?_insert (s := s) rfl, if_pos rfl, hnode hy]⟩
    · refine (isNode_congr ?_).mpr hy
      rw [shape?_insert (s := s) rfl, if_neg hid]
  refine inherits_insert rfl hnode fun owner hown => ?_
  exact (howner owner hown).imp (fun hown => ⟨e, he, hown⟩) hinherits

theorem Removes.entity?_eq {l : List EntityId} (h : Removes s l changes s')
    (hx : s'.entity? x = some e) : s.entity? x = some e := by
  induction h with
  | nil => exact hx
  | @cons s s' id source target l changes _ _ ih =>
    have hleft := ih hx
    rw [entity?_erase s _ id rfl] at hleft
    split at hleft
    · cases hleft
    · exact hleft

theorem inherits_removeEntity (hs : s.Consistent) (he : s.entity? id = some e) :
    ∃ changes s', (removeEntity id).on s = (.ok changes, s') ∧ s.Inherits s' (some id) := by
  rcases on_removeEntity_cases hs he with ⟨source, target, hlink, hon⟩ | ⟨changes, s', _, hremoves,
    hon⟩
  · refine ⟨_, _, hon, fun hx => .inl ((isNode_removeRelationship hlink).mpr hx),
      fun hfound howner => ?_⟩
    rw [entity?_erase s _ id rfl] at hfound
    split at hfound
    · cases hfound
    · exact .inl ⟨_, hfound, howner⟩
  · have hentity := entity?_erase s' (s'.removeNode id).2 id rfl
    refine ⟨_, _, hon, fun {x} hx => ?_, fun hfound howner => ?_⟩
    · by_cases hid : id = x
      · exact .inr ⟨congrArg some hid, by rw [hentity, if_pos hid]⟩
      · exact .inl ((isNode_congr (shape?_removeNode_of_ne hid)).mpr (hremoves.isNode_iff.mpr hx))
    · rw [hentity] at hfound
      split at hfound
      · cases hfound
      · exact .inl ⟨_, hremoves.entity?_eq hfound, howner⟩

end Snapshot

namespace Write

open Snapshot

variable {st : State} {w : Write} {s : Snapshot} {id : EntityId}

/-- The entity that a write deletes. -/
def deleted? : Write → Option EntityId
  | deleteEntity id => some id
  | _ => none

theorem eq_deleteEntity (h : w.deleted? = some id) : w = .deleteEntity id := by
  cases w with
  | deleteEntity x => exact congrArg deleteEntity (Option.some_inj.mp h)
  | _ => cases h

/-- The one write that gives an entity a new owner asks for a node. -/
theorem inherits_plan (settings : Settings) (hs : s.Consistent) (hfree : s.entity? id = none)
    (w : Write) : (w.plan settings id s).Settles fun edit => s.Inherits edit.1 w.deleted? := by
  have hupdate : ∀ {x : EntityId} {f : Entity → Entity} {gone : Option EntityId},
      (∀ e, (f e).kind = e.kind) → (∀ e, (f e).owner = e.owner) →
        (s.planUpdate x f).Settles fun edit => s.Inherits edit.1 gone :=
    fun hkind howner => settles_update fun e he =>
      inherits_modifyEntity he (hkind e) fun owner hown => .inl (howner e ▸ hown)
  cases w with
  | createNode typeName => exact settles_some inherits_insertNode
  | createRelationship | addMember => exact settles_link fun _ _ => inherits_link hfree
  | deleteEntity x => exact settles_delete fun _ he => inherits_removeEntity hs he
  | setOwner x owner =>
    cases owner with
    | none =>
      exact settles_update fun _ he =>
        inherits_modifyEntity (f := ({ · with owner := none })) he rfl nofun
    | some owner =>
      refine settles_bind fun _ hprincipal => settles_update fun _ he => ?_
      refine inherits_modifyEntity (f := ({ · with owner := some owner })) he rfl
        fun other hother => .inr ?_
      rw [← Option.some_inj.mp hother]
      exact exists_requireNode_iff.mp ⟨_, requirePrincipal_eq_ok_iff.mp hprincipal⟩
  | setVisibility x visibility => exact hupdate (fun _ => rfl) fun _ => rfl
  | setAdmin x isAdmin => exact settles_bind fun _ _ => hupdate (fun _ => rfl) fun _ => rfl
  | grant | revoke | grantAs | revokeAs =>
    rw [plan]
    exact settles_grants fun _ _ => inherits_of_entities rfl
  | declareRule | declareRuleBetween => exact settles_some (inherits_of_entities rfl)
  | removeRule name => exact settles_removeRule fun _ => inherits_of_entities rfl
  | loadRules document => exact settles_loadRules fun _ => inherits_of_entities rfl

theorem inherits_run (st : State) (hs : st.transaction.current.Consistent)
    (hbelow : st.transaction.current.Below st.db.nextId) (w : Write) :
    st.transaction.current.Inherits (w.run st).2.transaction.current w.deleted? := by
  have hran := ran_run st hs w
  generalize w.run st = outcome at hran ⊢
  cases hran with
  | refused =>
    rw [current_asked]
    exact inherits_of_entities rfl
  | @done edit hplan =>
    have hinherits := inherits_plan st.db.settings hs hbelow.free w
    cases edit with
    | none =>
      rw [Transaction.take, current_asked]
      exact inherits_of_entities rfl
    | some edit =>
      rw [Transaction.take, Transaction.current_write]
      exact hinherits edit hplan

end Write

namespace Session

variable {s : Session} {settings : Settings} {g : Snapshot} {r : Request}

/-- The snapshots of a session: the committed one, and those that its open transactions began with
and have come to. -/
def Shows (s : Session) (g : Snapshot) : Prop :=
  g = s.db.committed ∨
    ∃ name t, s.transaction? name = some t ∧ (g = t.base ∨ g = t.current)

/-- What a request does to the snapshots of a session. Each of them was there before, if under
another version, or came out of the snapshot of a transaction by a write. -/
theorem shows_step (hs : s.Sound settings) (h : (s.step r).2.Shows g) :
    (∃ former version, s.Shows former ∧ g = { former with version }) ∨
      ∃ name w t, r = .write name w ∧ s.transaction? name = some t ∧
        g = (w.run ⟨s.db, t⟩).2.transaction.current := by
  have hformer : ∀ {former}, s.Shows former → ∃ former' version, s.Shows former' ∧
      former = { former' with version } := fun h => ⟨_, _, h, rfl⟩
  have hopen : ∀ {other t}, s.transaction? other = some t → g = t.base ∨ g = t.current →
      ∃ former version, s.Shows former ∧ g = { former with version } :=
    fun ht hg => hformer (.inr ⟨_, _, ht, hg⟩)
  have hstep := s.stepped_step r
  generalize s.step r = outcome at h hstep
  cases hstep with
  | closed => exact .inl (hformer h)
  | begun name =>
    rcases h with rfl | ⟨other, found, hfound, hg⟩
    · exact .inl (hformer (.inl rfl))
    · rcases transaction?_insert hfound with ⟨_, rfl⟩ | ⟨_, hfound⟩
      · exact .inl (hformer (.inl (hg.elim (fun hg => hg) fun hg => hg)))
      · exact .inl (hopen hfound hg)
  | @committed name t ht =>
    refine .inl ?_
    rcases h with rfl | ⟨other, found, hfound, hg⟩
    · rcases Database.commit_cases s.db t with ⟨_, hc⟩ | ⟨_, _, hc⟩ | ⟨_, _, hc⟩
      · rw [hc]
        exact hformer (.inl rfl)
      · rw [hc]
        exact ⟨t.current, t.base.version + 1, .inr ⟨name, t, ht, .inr rfl⟩, rfl⟩
      · rw [hc]
        exact hformer (.inl rfl)
    · exact hopen (transaction?_erase hfound).2 hg
  | rolledBack =>
    rcases h with rfl | ⟨other, found, hfound, hg⟩
    · exact .inl (hformer (.inl rfl))
    · exact .inl (hopen (transaction?_erase hfound).2 hg)
  | @written name t w ht =>
    have hran := Write.ran_run ⟨s.db, t⟩ (hs.fits ht).1.sound.current w
    rcases h with rfl | ⟨other, found, hfound, hg⟩
    · obtain ⟨n, _, hdb⟩ := Write.db_ran hran
      rw [hdb]
      exact .inl (hformer (.inl rfl))
    · rcases transaction?_insert hfound with ⟨_, rfl⟩ | ⟨_, hfound⟩
      · rcases hg with rfl | rfl
        · rw [Write.base_ran hran]
          exact .inl (hformer (.inr ⟨name, t, ht, .inl rfl⟩))
        · exact .inr ⟨name, w, t, rfl, ht, rfl⟩
      · exact .inl (hopen hfound hg)
  | @answered name t q ht =>
    rcases h with rfl | ⟨other, found, hfound, hg⟩
    · exact .inl (hformer (.inl rfl))
    · rcases transaction?_insert hfound with ⟨_, rfl⟩ | ⟨_, hfound⟩
      · exact .inl (hopen ht hg)
      · exact .inl (hopen hfound hg)

/-- What is known of an owner in a snapshot: it is a node there, or a node that was deleted on one
of the requests. Its identifier is then in no use, and as it has been handed out before, nothing
else will get it. -/
def OwnerKnown (g : Snapshot) (owner : EntityId) (nextId : Nat) (requests : List Request) : Prop :=
  g.IsNode owner ∨ g.entity? owner = none ∧ owner.number < nextId ∧
    ∃ name, .write name (.deleteEntity owner) ∈ requests

theorem OwnerKnown.mono {owner : EntityId} {n n' : Nat} {requests : List Request}
    (h : OwnerKnown g owner n requests) (hn : n ≤ n') (r : Request) :
    OwnerKnown g owner n' (requests ++ [r]) := by
  refine h.imp_right fun ⟨hnone, hlt, name, hmem⟩ => ?_
  exact ⟨hnone, Nat.lt_of_lt_of_le hlt hn, name, List.mem_append_left _ hmem⟩

theorem OwnerKnown.write {owner : EntityId} {name : String} {t : Transaction} {n : Nat}
    {requests : List Request} (hs : s.Sound settings) (ht : s.transaction? name = some t)
    (h : OwnerKnown t.current owner s.db.nextId requests) (hn : s.db.nextId ≤ n) (w : Write) :
    OwnerKnown (w.run ⟨s.db, t⟩).2.transaction.current owner n (requests ++ [.write name w]) := by
  obtain ⟨hfits, hbelow⟩ := hs.fits ht
  rcases h with hnode | ⟨hnone, hlt, other, hmem⟩
  · have hinherits := Write.inherits_run ⟨s.db, t⟩ hfits.sound.current hbelow w
    refine (hinherits.isNode hnode).imp_right fun ⟨hdeleted, hnone⟩ => ?_
    obtain ⟨e, he⟩ := hnode.exists_entity
    exact ⟨hnone, Nat.lt_of_lt_of_le (hbelow owner e he) hn, name,
      by simp [Write.eq_deleteEntity hdeleted]⟩
  · refine .inr ⟨?_, Nat.lt_of_lt_of_le hlt hn, other, List.mem_append_left _ hmem⟩
    exact Write.lacks_ran hfits hbelow (Write.ran_run ⟨s.db, t⟩ hfits.sound.current w) hlt hnone

/-- Whatever is requested of a session, the owner of an entity is a node of the same snapshot unless
it has been deleted. -/
theorem ownership_run (settings : Settings) (requests : List Request) {g : Snapshot}
    (hg : ((new settings).run requests).Shows g) {x owner : EntityId} {e : Entity}
    (he : g.entity? x = some e) (howner : e.owner = some owner) :
    OwnerKnown g owner ((new settings).run requests).db.nextId requests := by
  induction requests using List.reverseRecOn generalizing g e with
  | nil =>
    have hg : (new settings).Shows g := hg
    rcases hg with rfl | ⟨name, t, ht, _⟩
    · simp [new, Database.new, Snapshot.entity?] at he
    · simp [new, transaction?] at ht
  | append_singleton requests r ih =>
    have hsound := sound_run (sound_new settings) requests
    have hnext := nextId_step hsound r
    rw [run_concat] at hg ⊢
    rcases shows_step hsound hg with ⟨former, version, hformer, rfl⟩ | ⟨name, w, t, rfl, ht, rfl⟩
    · exact (ih hformer he howner).mono hnext r
    · obtain ⟨hfits, hbelow⟩ := hsound.fits ht
      have hinherits := Write.inherits_run ⟨_, t⟩ hfits.sound.current hbelow w
      rcases hinherits.owner he howner with ⟨e', he', howner'⟩ | hnode
      · exact (ih (.inr ⟨name, t, ht, .inr rfl⟩) he' howner').write hsound ht hnext w
      · exact .inl hnode

/-- A user is made the owner of a page, and then deleted. -/
def bequest : List Request :=
  [.begin "setup", .write "setup" (.createNode "User"), .write "setup" (.createNode "Page"),
    .write "setup" (.setOwner ⟨2⟩ (some ⟨1⟩)), .write "setup" (.deleteEntity ⟨1⟩),
    .commit "setup"]

theorem owner_bequest :
    ∃ e, ((new {}).run bequest).db.committed.entity? ⟨2⟩ = some e ∧ e.owner = some ⟨1⟩ := by
  obtain ⟨e, he, howner⟩ := (Option.any_eq_true _ _).mp
    (show (((new {}).run bequest).db.committed.entity? ⟨2⟩).any (·.owner = some ⟨1⟩) = true by
      decide +kernel)
  exact ⟨e, he, of_decide_eq_true howner⟩

theorem ownership_run_bequest :
    ∃ e, ((new {}).run bequest).db.committed.entity? ⟨2⟩ = some e ∧ e.owner = some ⟨1⟩ ∧
      OwnerKnown ((new {}).run bequest).db.committed ⟨1⟩ ((new {}).run bequest).db.nextId
        bequest := by
  obtain ⟨e, he, howner⟩ := owner_bequest
  exact ⟨e, he, howner, ownership_run {} bequest (.inl rfl) he howner⟩

/-- The page is left with an owner that is gone, which it could not have been given. -/
theorem not_isNode_owner_bequest :
    ∃ e, ((new {}).run bequest).db.committed.entity? ⟨2⟩ = some e ∧ e.owner = some ⟨1⟩ ∧
      ¬ ((new {}).run bequest).db.committed.IsNode ⟨1⟩ := by
  obtain ⟨e, he, howner⟩ := owner_bequest
  have hnone : ((new {}).run bequest).db.committed.entity? ⟨1⟩ = none := by decide +kernel
  refine ⟨e, he, howner, fun hnode => ?_⟩
  obtain ⟨found, hfound⟩ := hnode.exists_entity
  rw [hnone] at hfound
  cases hfound

end Session
end PermissionGraph
