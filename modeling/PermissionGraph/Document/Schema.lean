import PermissionGraph.Document.Basic
import PermissionGraph.Permission.Flags
import PermissionGraph.Schema.Declaration

/-!
# PermissionGraph.Document.Schema

How permission sets and rule declarations stand in documents. A permission set is a text in flag
notation. A declaration is a record of which the relationship and the flow are required; its words
are not looked at when it is read from a document, only when it is declared.
-/

namespace PermissionGraph

open Std

/-- Reads a permission set: a text in flag notation. -/
def PermissionSet.ofDocument? (d : Document) : Option PermissionSet :=
  d.asString?.bind PermissionSet.ofFlags?

namespace Declaration

def effectsOfDocument? (d : Document) : Option (ExtTreeMap String String) := do
  let entries ← (← d.asObject?).mapM fun (kind, effect) => do
    return (kind, ← effect.asString?)
  return .ofList entries

def ofDocument? (d : Document) : Option Declaration := do
  let fields ← d.asObject?
  return {
    relationship := ← Document.field? fields "relationship" Document.asString?
    sourceType :=
      ← Document.fieldD? fields "source_type" (Document.asOptional? Document.asString?) none
    targetType :=
      ← Document.fieldD? fields "target_type" (Document.asOptional? Document.asString?) none
    flow := ← Document.field? fields "direction" Document.asString?
    effects := ← Document.fieldD? fields "modes" effectsOfDocument? ∅ }

end Declaration
end PermissionGraph
