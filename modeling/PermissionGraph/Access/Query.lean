import PermissionGraph.Access.Resolution
import PermissionGraph.Action
import PermissionGraph.Memo.Local

/-!
# PermissionGraph.Access.Query

Questions about permissions. The permissions of a principal on an entity combine grants of the
principal and its groups, ownership, visibility, and what propagates over relationships.
Administrators are exempt: the superuser, the users named in the settings, and users whose nodes
say so. An entity must exist even for an administrator.

Every question reads a memo and may add to it. A question that fails may have added something
before: one made of several keeps what the earlier ones added.
-/

namespace PermissionGraph

variable {ε α : Type}

/-- A question to a graph that reads and extends a memo. -/
abbrev Query (ε : Type) := Action LocalMemo (AccessError ε)

namespace Query

def ask (q : Query ε α) (memo : LocalMemo) : Except (AccessError ε) α × LocalMemo := q.on memo

end Query

/-- A graph about which questions are asked, with the settings and the memo that is shared. -/
structure Access (ε : Type) where
  view : GraphView ε
  settings : Settings
  shared : SharedMemo := ∅

namespace Access

def entity (a : Access ε) (id : EntityId) : Except (AccessError ε) Entity :=
  match a.view.entity? id with
  | .error cause => .error (.lookup cause)
  | .ok none => .error (.entityNotFound id)
  | .ok (some e) => .ok e

def isSuperuser (a : Access ε) : Principal → Except (AccessError ε) Bool
  | .superuser => .ok true
  | .anonymous => .ok false
  | .user id =>
    if id ∈ a.settings.superusers then .ok true
    else match a.entity id with
      | .error e => .error e
      | .ok e => .ok e.isAdmin

/-- The groups of a principal that stands in the graph. -/
def members (a : Access ε) (principal : Principal) : Except (AccessError ε) (List Member) :=
  match principal.id? with
  | none => .ok []
  | some user =>
    match Membership.closure a.view a.settings user with
    | .error cause => .error (.lookup cause)
    | .ok members => .ok members

/-- Resolves an entity and all that its permissions hang on. -/
def discover (a : Access ε) (memo : LocalMemo) (principal : Principal) (root : EntityId) :
    Except (AccessError ε) Discovery := do
  let members ← a.members principal
  Discovery.explore a.view a.settings (fun id => memo.get? a.shared ⟨principal, id⟩) members
    principal root

/-- Keeps in the memo what was resolved of a walk. -/
def keep (memo : LocalMemo) (principal : Principal) (d : Discovery) (resolved : Resolved) :
    LocalMemo :=
  d.derivations.keys.foldl (fun memo id =>
    match resolved[id]? with
    | some entry => memo.insert ⟨principal, id⟩ entry
    | none => memo) memo

/-- Resolves an entity that is not remembered, and keeps all that was resolved on the way. -/
def resolve (a : Access ε) (principal : Principal) (root : EntityId) : Query ε PermissionSet := do
  let d ← a.discover (← get) principal root
  let resolved := Resolved.of d
  modify (keep · principal d resolved)
  return resolved.permissions root

def permissions (a : Access ε) (principal : Principal) (id : EntityId) : Query ε PermissionSet := do
  if ← a.isSuperuser principal then
    let _ ← a.entity id
    return .full
  match (← get).get? a.shared ⟨principal, id⟩ with
  | some entry => return entry.permissions
  | none => a.resolve principal id

/-- The permissions of a principal on an entity, with the memo after the question. -/
def answer (a : Access ε) (memo : LocalMemo) (principal : Principal) (id : EntityId) :
    Except (AccessError ε) (PermissionSet × LocalMemo) :=
  (a.permissions principal id).outcome memo

def isAllowed (a : Access ε) (principal : Principal) (id : EntityId) (kind : Permission) :
    Query ε Bool := do
  return (← a.permissions principal id).holds kind

def isVisible (a : Access ε) (principal : Principal) (id : EntityId) : Query ε Bool :=
  a.isAllowed principal id .read

/-- Fails unless a principal holds a kind on an entity. -/
def require (a : Access ε) (principal : Principal) (id : EntityId) (kind : Permission) :
    Query ε Unit := do
  if ← a.isAllowed principal id kind then return ()
  else throw (.forbidden principal id kind)

/-- Whether a principal may create a relationship between two entities. The second is not asked
about when the first refuses. -/
def canLink (a : Access ε) (principal : Principal) (source target : EntityId) :
    Query ε Bool := do
  if (← a.permissions principal source).allowsLink then
    return (← a.permissions principal target).allowsLink
  else
    return false

end Access
end PermissionGraph
