/-
# Writing JSON

* `JsonText.quoted` : the text of a string between quotes;
* `Json.write` : the characters of a value, on one line or indented;
* `Json.compact`, `Json.pretty` : its text.
-/
import SymbolicRegression.Json.Basic

namespace SymbolicRegression

/-! ## Strings -/

/-- The hexadecimal digit of a number below sixteen, in lower case. -/
def hexChar (n : Nat) : Char := Char.ofNat (if n < 10 then 48 + n else 87 + n)

/-- The escape of a code by four hexadecimal digits. -/
def codeEscape (code : Nat) : List Char :=
  ['\\', 'u', hexChar (code / 4096 % 16), hexChar (code / 256 % 16), hexChar (code / 16 % 16),
    hexChar (code % 16)]

/-- A character inside a string: quotes, backslashes and control characters are
escaped, the latter by a letter where there is one. -/
def quotedChar (c : Char) : List Char :=
  if c = '"' then ['\\', '"']
  else if c = '\\' then ['\\', '\\']
  else if c.toNat = 8 then ['\\', 'b']
  else if c.toNat = 9 then ['\\', 't']
  else if c.toNat = 10 then ['\\', 'n']
  else if c.toNat = 12 then ['\\', 'f']
  else if c.toNat = 13 then ['\\', 'r']
  else if c.toNat < 32 then codeEscape c.toNat
  else [c]

/-- A unit of text inside a string. -/
def TextUnit.quoted : TextUnit → List Char
  | .char c => quotedChar c
  | .half code => codeEscape code

/-- A text between quotes. -/
def JsonText.quoted (text : JsonText) : List Char := '"' :: (text.flatMap TextUnit.quoted ++ ['"'])

/-! ## Values -/

/-- The start of a line at a level of indentation; nothing when all is on one line. -/
def lineStart : Option Nat → List Char
  | none => []
  | some level => '\n' :: List.replicate (2 * level) ' '

/-- What stands between a key and its value. -/
def keySeparator : Option Nat → List Char
  | none => [':']
  | some _ => [':', ' ']

/-- One level of indentation more. -/
def deeper : Option Nat → Option Nat := Option.map (· + 1)

namespace Json

mutual

/-- The characters of a value, and `rest` after them.  With a level of indentation
every item and every member stands on a line of its own; without one all is on one line. -/
def write (level : Option Nat) (rest : List Char) : Json → List Char
  | .null => 'n' :: 'u' :: 'l' :: 'l' :: rest
  | .bool true => 't' :: 'r' :: 'u' :: 'e' :: rest
  | .bool false => 'f' :: 'a' :: 'l' :: 's' :: 'e' :: rest
  | .number n => n.chars ++ rest
  | .string text => text.quoted ++ rest
  | .array [] => '[' :: ']' :: rest
  | .array (item :: items) =>
      '[' :: (lineStart (deeper level)
        ++ write (deeper level) (writeItems (deeper level) (lineStart level ++ ']' :: rest) items)
            item)
  | .object [] => '{' :: '}' :: rest
  | .object ((key, value) :: members) =>
      '{' :: (lineStart (deeper level) ++ (key.quoted ++ (keySeparator level
        ++ write (deeper level)
            (writeMembers (deeper level) (lineStart level ++ '}' :: rest) members) value)))

/-- The characters of the items of an array after the first one, and `rest` after them. -/
def writeItems (level : Option Nat) (rest : List Char) : List Json → List Char
  | [] => rest
  | item :: items => ',' :: (lineStart level ++ write level (writeItems level rest items) item)

/-- The characters of the members of an object after the first one, and `rest` after them. -/
def writeMembers (level : Option Nat) (rest : List Char) : List (JsonText × Json) → List Char
  | [] => rest
  | (key, value) :: members =>
      ',' :: (lineStart level ++ (key.quoted ++ (keySeparator level
        ++ write level (writeMembers level rest members) value)))

end

/-- The text of a value on one line, without blanks. -/
def compact (json : Json) : String := String.ofList (json.write none [])

/-- The text of a value on several lines, indented by two blanks a level. -/
def pretty (json : Json) : String := String.ofList (json.write (some 0) [])

end Json

end SymbolicRegression
