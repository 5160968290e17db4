/-
# Fields of JSON values

A record with named fields may be written as an object, in any order, or as an
array, in the order of the fields.

* `Json.fields?` : the fields of a record by their names;
* `Json.encodeFloat` : a double as a value.
-/
import SymbolicRegression.Decimal.Style
import SymbolicRegression.Json.Number

namespace SymbolicRegression

/-- How JSON texts write a double: positional from a hundred-thousandth up to
ten to the sixteenth, always with a point there, and otherwise with a power of
ten that shows its sign. -/
def recordStyle : NumeralStyle where
  tie := .even
  positionalFrom := some (-5)
  positionalBelow := some 16
  pointZero := true
  exponentPlus := true

namespace Json

/-- A double as a value; one that is infinite or a NaN is `null`. -/
def encodeFloat (x : Float) : Json :=
  match recordStyle.numeral? x with
  | some n => .number n
  | none => .null

/-- The members of an object by name, if all its keys are strings of characters. -/
def named? (members : List (JsonText × Json)) : Option (List (String × Json)) :=
  members.mapM fun member => member.1.toString?.map fun name => (name, member.2)

/-- The member of a name; nothing if there are several of that name. -/
def member? (members : List (String × Json)) (name : String) : Option (Option Json) :=
  match members.filter (·.1 == name) with
  | [] => some none
  | [(_, value)] => some (some value)
  | _ :: _ :: _ => none

/-- The fields with the given names, each if it is there.  Other members of an
object are skipped; an array must not be longer than the list of names. -/
def fields? (names : List String) : Json → Option (List (Option Json))
  | .object members => do
      let members ← named? members
      names.mapM (member? members)
  | .array items =>
      if items.length ≤ names.length then
        some (items.map some ++ List.replicate (names.length - items.length) none)
      else none
  | _ => none

/-- Read a field if it is there. -/
def readOr {α : Type} (default : α) (read : Json → Option α) : Option Json → Option α
  | none => some default
  | some json => read json

end Json

end SymbolicRegression
