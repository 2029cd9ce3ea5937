import PermissionGraph.Access.Membership

/-!
# PermissionGraph.Access.Derivation

Where the permissions of a principal on one entity come from: what the principal holds there on its
own (the base), and the other entities whose permissions flow in (the inputs). Additions are
collected over all inputs before removals are taken away, so a removal can not be undone by an
addition over another relationship.

* `Derivation.combine`: the permissions, given those of the other entities.
* `Derivation.of`: reads the derivation off a graph.
-/

namespace PermissionGraph

variable {ε : Type}

/-- A place from which permissions flow into an entity. -/
inductive Input where
  /-- The other end of a relationship whose rule propagates towards the entity. -/
  | propagated (other : EntityId) (rule : Rule)
  /-- Both ends of the relationship that the entity is: who can read them can read it. -/
  | endpoints (source target : EntityId)
  deriving DecidableEq, Repr

namespace Input

/-- The entities whose permissions an input carries. -/
def origins : Input → List EntityId
  | propagated other _ => [other]
  | endpoints source target => [source, target]

def added (held : EntityId → PermissionSet) : Input → PermissionSet
  | propagated other rule => rule.added (held other)
  | endpoints source target =>
    if (held source).holds .read && (held target).holds .read then .single .read else ∅

def removed (held : EntityId → PermissionSet) : Input → PermissionSet
  | propagated other rule => rule.removed (held other)
  | endpoints .. => ∅

end Input

/-- Where the permissions of a principal on an entity come from. -/
structure Derivation where
  base : PermissionSet
  inputs : List Input
  /-- The entities that were consulted for the base, the entity itself among them. -/
  consulted : EntitySet
  deriving DecidableEq

namespace Derivation

/-- The entities whose permissions flow in. -/
def origins (d : Derivation) : List EntityId := d.inputs.flatMap Input.origins

/-- The permissions that follow from those of the other entities. -/
def combine (d : Derivation) (held : EntityId → PermissionSet) : PermissionSet :=
  (d.base ∪ .sum (d.inputs.map (·.added held))) \ .sum (d.inputs.map (·.removed held))

theorem holds_combine (d : Derivation) (held : EntityId → PermissionSet) (k : Permission) :
    (d.combine held).holds k =
      ((d.base.holds k || d.inputs.any fun i => (i.added held).holds k)
        && !d.inputs.any fun i => (i.removed held).holds k) := by
  simp [combine, List.any_map, Function.comp_def]

/-- What a principal holds on an entity on its own, with the entities consulted for it. An owner
holds everything, whatever its groups are granted. `members` are the user and its groups. -/
def baseOf (view : GraphView ε) (members : List Member) (principal : Principal) (id : EntityId)
    (e : Entity) : Except ε (PermissionSet × EntitySet) :=
  match principal with
  | .superuser => .ok (.full, {id})
  | .anonymous => .ok (if e.visibility.isPublic then .single .read else ∅, {id})
  | .user user => do
    let consulted : EntitySet := {id, user}
    if e.owner = some user then return (.full, consulted)
    let visible := e.visibility.isPublic || e.visibility.isAuthenticated
    let granted ← Membership.inherited view members user id
    return ((if visible then .single .read else ∅) ∪ granted,
      members.foldl (fun s m => s.insert m.id) consulted)

/-- The input through which a relationship can be read by those who can read its endpoints, left
out where the base holds reading already. -/
def endpointInputs (settings : Settings) (base : PermissionSet) (e : Entity) : List Input :=
  if settings.readableFromEndpoints && !base.holds .read then
    match e.endpoints? with
    | some (source, target) => [.endpoints source target]
    | none => []
  else []

/-- The inputs from the other ends of relationships, by ascending relationship and other end. -/
def propagatedInputs (rules : RuleBook) (incidents : List Incident) : List Input :=
  ((sortBy Incident.ble incidents).filter (Membership.admits rules)).map fun i =>
    .propagated i.other (rules.ruleFor i.relationshipType)

/-- Reads off a graph where the permissions of a principal on an entity come from. -/
def of (view : GraphView ε) (settings : Settings) (members : List Member) (principal : Principal)
    (id : EntityId) (e : Entity) : Except ε Derivation := do
  let (base, consulted) ← baseOf view members principal id e
  let incidents ← view.incidents id
  let inputs := endpointInputs settings base e ++ propagatedInputs view.rules incidents
  return { base, inputs, consulted }

theorem mem_origins {d : Derivation} {id : EntityId} :
    id ∈ d.origins ↔ ∃ i ∈ d.inputs, id ∈ i.origins := by
  simp [origins]

theorem mem_propagatedInputs {rules : RuleBook} {incidents : List Incident} {input : Input} :
    input ∈ propagatedInputs rules incidents ↔
      ∃ i ∈ incidents, Membership.admits rules i = true ∧
        input = .propagated i.other (rules.ruleFor i.relationshipType) := by
  simp only [propagatedInputs, List.mem_map, List.mem_filter, mem_sortBy]
  constructor
  · rintro ⟨i, ⟨hi, ha⟩, rfl⟩
    exact ⟨i, hi, ha, rfl⟩
  · rintro ⟨i, hi, ha, rfl⟩
    exact ⟨i, ⟨hi, ha⟩, rfl⟩

end Derivation
end PermissionGraph
