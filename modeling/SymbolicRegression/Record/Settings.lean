/-
# Settings as JSON

* `Settings.toJson` : settings as a value;
* `Settings.ofJson?` : the settings that a value describes;
* `Settings.ofText` : the settings that a text describes, if a search can run with them.
-/
import SymbolicRegression.Json.Fields
import SymbolicRegression.Json.Parser
import SymbolicRegression.Json.Printer
import SymbolicRegression.Settings

namespace SymbolicRegression

namespace Settings

/-- The names of the fields, in their order. -/
def fieldNames : List String :=
  [ "max_depth", "tree_attempts", "branch_probability", "binary_probability",
    "variable_probability", "subtree_mutation_rate" ]

/-- Settings as a value. -/
def toJson (s : Settings) : Json :=
  .ofMembers
    [ ("max_depth", .ofNat s.maxDepth),
      ("tree_attempts", .ofNat s.attempts),
      ("branch_probability", .encodeFloat s.branchProbability),
      ("binary_probability", .encodeFloat s.binaryProbability),
      ("variable_probability", .encodeFloat s.variableProbability),
      ("subtree_mutation_rate", .encodeFloat s.subtreeMutationRate) ]

/-- The settings that a value describes; a missing field has its default. -/
def ofJson? (json : Json) : Option Settings := do
  let base : Settings := {}
  match ← json.fields? fieldNames with
  | [maxDepth, attempts, branch, binary, leaf, subtree] =>
      return {
        maxDepth := ← Json.readOr base.maxDepth (Json.natBelow? wordBound) maxDepth
        attempts := ← Json.readOr base.attempts (Json.natBelow? wordBound) attempts
        branchProbability := ← Json.readOr base.branchProbability Json.float? branch
        binaryProbability := ← Json.readOr base.binaryProbability Json.float? binary
        variableProbability := ← Json.readOr base.variableProbability Json.float? leaf
        subtreeMutationRate := ← Json.readOr base.subtreeMutationRate Json.float? subtree }
  | _ => none

/-- The settings that a text describes, if a search can run with them. -/
def ofText (text : String) : Except SettingsError Settings :=
  match (Json.ofText? text).bind ofJson? with
  | none => .error .malformed
  | some s => s.check

end Settings

end SymbolicRegression
