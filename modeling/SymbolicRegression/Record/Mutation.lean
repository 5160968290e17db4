/-
# Ways of mutation as JSON

* `Mutation.toJson`, `Mutation.ofText?` : a way of mutation by its name.
-/
import SymbolicRegression.Individual.Mutation
import SymbolicRegression.Json.Parser
import SymbolicRegression.Json.Printer

namespace SymbolicRegression

namespace Mutation

/-- The name of a way in JSON texts. -/
def name : Mutation → String
  | .subtree => "Subtree"
  | .point => "Point"
  | .permutation => "Permutation"
  | .hoist => "Hoist"
  | .collapse => "Collapse"

/-- The way of a name. -/
def ofName? (name : String) : Option Mutation := all.find? fun way => way.name == name

/-- A way as a value. -/
def toJson (way : Mutation) : Json := .ofString way.name

/-- The way that a value tells: its name, or an object whose only key is the
name, with `null`. -/
def ofJson? : Json → Option Mutation
  | .string text => text.toString?.bind ofName?
  | .object [(key, .null)] => key.toString?.bind ofName?
  | _ => none

/-- The way that a text tells. -/
def ofText? (text : String) : Option Mutation := (Json.ofText? text).bind ofJson?

end Mutation

end SymbolicRegression
