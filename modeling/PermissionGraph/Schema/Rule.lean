import PermissionGraph.Permission.Set
import PermissionGraph.Schema.Flow

/-!
# PermissionGraph.Schema.Rule

Propagation rules. A rule says which way permissions flow along a relationship and what each kind
does where it arrives. What a rule adds or takes away depends on the kinds held at the other end
only, so it comes down to two sets: `Rule.added` and `Rule.removed`.
-/

namespace PermissionGraph

/-- One effect for each kind of permission. -/
structure Effects where
  read : Effect := .keep
  write : Effect := .keep
  delete : Effect := .keep
  accessControl : Effect := .keep
  link : Effect := .keep
  deriving DecidableEq, Repr

namespace Effects

def get (e : Effects) : Permission → Effect
  | .read => e.read
  | .write => e.write
  | .delete => e.delete
  | .accessControl => e.accessControl
  | .link => e.link

def set (e : Effects) (k : Permission) (effect : Effect) : Effects :=
  match k with
  | .read => { e with read := effect }
  | .write => { e with write := effect }
  | .delete => { e with delete := effect }
  | .accessControl => { e with accessControl := effect }
  | .link => { e with link := effect }

def always (effect : Effect) : Effects := ⟨effect, effect, effect, effect, effect⟩

@[simp] theorem get_set (e : Effects) (k l : Permission) (effect : Effect) :
    (e.set k effect).get l = if k = l then effect else e.get l := by
  cases k <;> cases l <;> rfl

@[simp] theorem get_always (effect : Effect) (k : Permission) : (always effect).get k = effect := by
  cases k <;> rfl

theorem ext_get {a b : Effects} (h : ∀ k, a.get k = b.get k) : a = b := by
  obtain ⟨⟩ := a
  obtain ⟨⟩ := b
  simp only [mk.injEq]
  exact ⟨h .read, h .write, h .delete, h .accessControl, h .link⟩

end Effects

/-- How permissions propagate along the relationships of one type. -/
structure Rule where
  flow : Flow := .never
  effects : Effects := {}
  deriving DecidableEq, Repr

namespace Rule

def none : Rule := {}

/-- The rule of group membership: all that a group (source) holds, its members (targets) hold. -/
def membership : Rule := ⟨.outward, .always .add⟩

def effect (r : Rule) (k : Permission) : Effect := r.effects.get k

def setEffect (r : Rule) (k : Permission) (effect : Effect) : Rule :=
  { r with effects := r.effects.set k effect }

def setAll (r : Rule) (effect : Effect) : Rule := { r with effects := .always effect }

/-- Whether the rule can change anything at an entity that sees the relationship in this
direction. -/
def propagates (r : Rule) (direction : Direction) : Bool :=
  r.flow.admits direction && Permission.all.any (r.effect · != .keep)

def kindsWith (r : Rule) (effect : Effect) : PermissionSet :=
  .ofList (Permission.all.filter (r.effect · == effect))

/-- What arrives as an addition when `held` is held at the other end. -/
def added (r : Rule) (held : PermissionSet) : PermissionSet := held ∩ r.kindsWith .add

/-- What arrives as a removal when `held` is held at the other end. -/
def removed (r : Rule) (held : PermissionSet) : PermissionSet := held ∩ r.kindsWith .remove

@[simp] theorem holds_kindsWith (r : Rule) (effect : Effect) (k : Permission) :
    (r.kindsWith effect).holds k = (r.effect k == effect) := by
  simp [kindsWith, Permission.mem_all, BEq.beq]

theorem holds_added (r : Rule) (held : PermissionSet) (k : Permission) :
    (r.added held).holds k = (held.holds k && r.effect k == .add) := by
  simp [added]

theorem holds_removed (r : Rule) (held : PermissionSet) (k : Permission) :
    (r.removed held).holds k = (held.holds k && r.effect k == .remove) := by
  simp [removed]

@[simp] theorem effect_setEffect (r : Rule) (k l : Permission) (effect : Effect) :
    (r.setEffect k effect).effect l = if k = l then effect else r.effect l := by
  simp [Rule.effect, setEffect]

@[simp] theorem effect_setAll (r : Rule) (effect : Effect) (k : Permission) :
    (r.setAll effect).effect k = effect := by
  simp [Rule.effect, setAll]

theorem propagates_iff {r : Rule} {direction : Direction} :
    r.propagates direction = true ↔
      r.flow.admits direction = true ∧ ∃ k, r.effect k ≠ .keep := by
  simp [propagates, Permission.mem_all]

@[simp] theorem propagates_none (direction : Direction) : none.propagates direction = false := by
  cases direction <;> rfl

end Rule
end PermissionGraph
