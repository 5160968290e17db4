/-
# JSON values

JSON as it is written: numbers are numerals, the members of an object keep their
order and may repeat a key, and the text of a string may hold half of a
surrogate pair.

* `TextUnit`, `JsonText` : the text of a string;
* `Json` : the values.
-/
import SymbolicRegression.Decimal.Numeral

namespace SymbolicRegression

/-! ## Text -/

/-- A unit of the text of a JSON string. -/
inductive TextUnit
  /-- A character. -/
  | char (c : Char)
  /-- A half of a surrogate pair without its other half. -/
  | half (code : Nat)
  deriving DecidableEq, Repr

/-- The text of a JSON string. -/
abbrev JsonText := List TextUnit

namespace JsonText

/-- The text that consists of the characters of a string. -/
def ofString (s : String) : JsonText := s.toList.map .char

/-- The characters of a text, if it has no half of a surrogate pair. -/
def chars? : JsonText → Option (List Char)
  | [] => some []
  | .char c :: rest => (chars? rest).map (c :: ·)
  | .half _ :: _ => none

/-- The string of a text, if it has no half of a surrogate pair. -/
def toString? (text : JsonText) : Option String := text.chars?.map String.ofList

/-- A text that consists of characters is read as these. -/
theorem chars?_map_char (cs : List Char) : chars? (cs.map .char) = some cs := by
  induction cs with
  | nil => rfl
  | cons c cs ih => simp [chars?, ih]

/-- A string is read back from its text. -/
theorem toString?_ofString (s : String) : (ofString s).toString? = some s := by
  simp [toString?, ofString, chars?_map_char]

end JsonText

/-! ## Values -/

/-- A JSON value. -/
inductive Json
  | null
  | bool (value : Bool)
  | number (numeral : Numeral)
  | string (text : JsonText)
  | array (items : List Json)
  | object (members : List (JsonText × Json))
  deriving Inhabited

namespace Json

/-- The string value with the characters of `s`. -/
def ofString (s : String) : Json := .string (.ofString s)

/-- The number value of a natural number. -/
def ofNat (n : Nat) : Json := .number (.ofNat n)

/-- The object with the given members. -/
def ofMembers (members : List (String × Json)) : Json :=
  .object (members.map fun member => (.ofString member.1, member.2))

/-- The string that a value is. -/
def asString? : Json → Option String
  | .string text => text.toString?
  | _ => none

end Json

end SymbolicRegression
