/-
# Reading JSON

The tokens of a value are read one after the other, with a stack of the arrays
and objects that are open.

* `Frame` : an open array or object;
* `Reading` : what has been read, and what may follow;
* `Reading.step` : what a token adds;
* `Json.ofChars?`, `Json.ofText?` : the value that a text spells.
-/
import SymbolicRegression.Json.Token

namespace SymbolicRegression

/-- An array or object that is open, with its parts read so far, the last one first. -/
inductive Frame
  /-- An array, of which an item is under way. -/
  | array (items : List Json)
  /-- An object, of which the member with the given key is under way. -/
  | object (members : List (JsonText × Json)) (key : JsonText)

/-- What has been read; the innermost open array or object comes first. -/
inductive Reading
  /-- A value must follow. -/
  | value (stack : List Frame)
  /-- An array has just been opened: its first item or its end must follow. -/
  | firstItem (stack : List Frame)
  /-- An object has just been opened: its first key or its end must follow. -/
  | firstKey (stack : List Frame)
  /-- A key must follow, after these members. -/
  | nextKey (members : List (JsonText × Json)) (stack : List Frame)
  /-- A colon must follow, after these members and this key. -/
  | colon (members : List (JsonText × Json)) (key : JsonText) (stack : List Frame)
  /-- A value has been read. -/
  | complete (json : Json) (stack : List Frame)

namespace Reading

/-- What follows from a token at which a value must start. -/
def startValue (stack : List Frame) : Token → Option Reading
  | .openBrace => some (.firstKey stack)
  | .openBracket => some (.firstItem stack)
  | .null => some (.complete .null stack)
  | .bool b => some (.complete (.bool b) stack)
  | .number n => some (.complete (.number n) stack)
  | .string s => some (.complete (.string s) stack)
  | .closeBrace | .closeBracket | .colon | .comma => none

/-- What follows from one more token. -/
def step : Reading → Token → Option Reading
  | .value stack, token => startValue stack token
  | .firstItem stack, .closeBracket => some (.complete (.array []) stack)
  | .firstItem stack, token => startValue (.array [] :: stack) token
  | .firstKey stack, .closeBrace => some (.complete (.object []) stack)
  | .firstKey stack, .string key => some (.colon [] key stack)
  | .nextKey members stack, .string key => some (.colon members key stack)
  | .colon members key stack, .colon => some (.value (.object members key :: stack))
  | .complete json (.array items :: stack), .comma =>
      some (.value (.array (json :: items) :: stack))
  | .complete json (.array items :: stack), .closeBracket =>
      some (.complete (.array (json :: items).reverse) stack)
  | .complete json (.object members key :: stack), .comma =>
      some (.nextKey ((key, json) :: members) stack)
  | .complete json (.object members key :: stack), .closeBrace =>
      some (.complete (.object ((key, json) :: members).reverse) stack)
  | _, _ => none

/-- The value that has been read, if nothing is open. -/
def result? : Reading → Option Json
  | .complete json [] => some json
  | _ => none

end Reading

namespace Json

/-- The value that a list of tokens spells, all of it. -/
def ofTokens? (tokens : List Token) : Option Json := do
  let reading ← tokens.foldlM Reading.step (.value [])
  reading.result?

/-- The value that a list of characters spells, all of it. -/
def ofChars? (cs : List Char) : Option Json := do
  let tokens ← Token.scan? cs
  ofTokens? tokens

/-- The value that a text spells, all of it. -/
def ofText? (text : String) : Option Json := ofChars? text.toList

end Json

end SymbolicRegression
