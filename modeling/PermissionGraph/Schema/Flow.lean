import PermissionGraph.Graph.Entity
import PermissionGraph.Schema.Error

/-!
# PermissionGraph.Schema.Flow

Which way permissions flow along a relationship, and what arrives at the far end. Both are written
as words in rule documents; the words are read without regard to the case of ASCII letters.
-/

namespace PermissionGraph

/-- Which way permissions flow along a relationship. -/
inductive Flow where
  | never
  /-- From source to target. -/
  | outward
  /-- From target to source. -/
  | inward
  | both
  deriving DecidableEq, Repr

namespace Flow

/-- Whether permissions arrive at an entity that sees the relationship in this direction. What
flows outward arrives at the target, which sees the relationship come in. -/
def admits : Flow → Direction → Bool
  | never, _ => false
  | outward, direction => direction == .incoming
  | inward, direction => direction == .outgoing
  | both, _ => true

def name : Flow → String
  | never => "none"
  | outward => "out"
  | inward => "in"
  | both => "both"

/-- Reads the word for a flow, or says which word is not one. -/
def parse (word : String) : Except SchemaError Flow :=
  match word.map Char.toLower with
  | "none" => .ok never
  | "out" => .ok outward
  | "in" => .ok inward
  | "both" => .ok both
  | _ => .error (.unknownFlow word)

end Flow

/-- What a kind held at one end of a relationship does at the other end. -/
inductive Effect where
  | keep
  | add
  | remove
  deriving DecidableEq, Repr

namespace Effect

def name : Effect → String
  | keep => "none"
  | add => "add"
  | remove => "remove"

/-- Reads the word for an effect, or says which word is not one. `keep` has two words. -/
def parse (word : String) : Except SchemaError Effect :=
  match word.map Char.toLower with
  | "none" => .ok keep
  | "keep" => .ok keep
  | "add" => .ok add
  | "remove" => .ok remove
  | _ => .error (.unknownEffect word)

end Effect
end PermissionGraph
