/-!
# PermissionGraph.Schema.Error

What can be wrong with the words of a propagation rule. Each cause keeps the text it complains
about exactly as it was written, so that a message can quote it.
-/

namespace PermissionGraph

inductive SchemaError where
  | unknownPermission (word : String)
  | unknownFlow (word : String)
  | unknownEffect (word : String)
  /-- A rule for this relationship names one endpoint type and leaves the other open. -/
  | incompletePair (relationship : String)
  deriving DecidableEq, Repr

namespace SchemaError

/-- The sentence shown for an error. The quoted text is verbatim. -/
def message : SchemaError → String
  | unknownPermission word => "unknown permission kind \"" ++ word ++ "\" in propagation rule"
  | unknownFlow word => "unknown propagation direction \"" ++ word ++ "\""
  | unknownEffect word => "unknown propagation mode \"" ++ word ++ "\""
  | incompletePair relationship =>
    "rule for relationship \"" ++ relationship ++ "\" names only one endpoint type"

end SchemaError
end PermissionGraph
