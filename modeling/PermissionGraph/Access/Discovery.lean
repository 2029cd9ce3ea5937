import PermissionGraph.Access.Derivation
import PermissionGraph.Memo.Basic

/-!
# PermissionGraph.Access.Discovery

Finding every entity that the permissions on one entity hang on. The walk goes depth first over the
inputs of what it finds and stops at entities whose permissions are remembered from earlier. What
has been found last is looked at first, so of several failing look-ups it is settled which one is
reported.

The walk ends because each round reads the derivation of one more entity of the graph
(`GraphView.mem_ids`).
-/

namespace PermissionGraph

variable {ε : Type}

/-- What a walk has found. -/
structure Discovery where
  /-- The entities to be resolved. -/
  derivations : EntityMap Derivation := ∅
  /-- The entities that are remembered from earlier. -/
  remembered : EntityMap MemoEntry := ∅
  deriving DecidableEq

namespace Discovery

instance : EmptyCollection Discovery := ⟨{}⟩

/-- Whether a walk has been at an entity. -/
def contains (d : Discovery) (id : EntityId) : Bool :=
  d.derivations.contains id || d.remembered.contains id

/-- Works off the entities at the top of the stack that need no derivation, because the walk has
been there or because they are remembered. -/
def settle (recalled : EntityId → Option MemoEntry) :
    List EntityId → Discovery → List EntityId × Discovery
  | [], d => ([], d)
  | id :: stack, d =>
    if d.contains id then settle recalled stack d
    else match recalled id with
      | some entry => settle recalled stack { d with remembered := d.remembered.insert id entry }
      | none => (id :: stack, d)

/-- Reads the derivation of an entity, which must exist. -/
def derive (view : GraphView ε) (settings : Settings) (members : List Member)
    (principal : Principal) (id : EntityId) : Except (AccessError ε) Derivation :=
  match view.entity? id with
  | .error cause => .error (.lookup cause)
  | .ok none => .error (.entityNotFound id)
  | .ok (some e) =>
    match Derivation.of view settings members principal id e with
    | .error cause => .error (.lookup cause)
    | .ok derivation => .ok derivation

/-- Walks on from a stack for a number of rounds, reading one derivation in each. -/
def walk (recalled : EntityId → Option MemoEntry)
    (derive : EntityId → Except (AccessError ε) Derivation) :
    Nat → List EntityId → Discovery → Except (AccessError ε) Discovery
  | 0, _, d => .ok d
  | rounds + 1, stack, d =>
    match settle recalled stack d with
    | ([], d) => .ok d
    | (id :: stack, d) => do
      let derivation ← derive id
      walk recalled derive rounds (derivation.origins.reverse ++ stack)
        { d with derivations := d.derivations.insert id derivation }

/-- Everything that the permissions on an entity hang on. -/
def explore (view : GraphView ε) (settings : Settings) (recalled : EntityId → Option MemoEntry)
    (members : List Member) (principal : Principal) (root : EntityId) :
    Except (AccessError ε) Discovery :=
  walk recalled (derive view settings members principal) (view.ids.length + 1) [root] ∅

theorem contains_iff {d : Discovery} {id : EntityId} :
    d.contains id = true ↔ id ∈ d.derivations ∨ id ∈ d.remembered := by
  simp [contains]

end Discovery
end PermissionGraph
