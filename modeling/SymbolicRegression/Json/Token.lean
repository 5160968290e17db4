/-
# JSON tokens

A JSON text is cut into tokens by reading it character by character.

* `Token` : the tokens;
* `Scan` : what has been read of the token under way;
* `Scan.step` : what a character adds;
* `Token.scan?` : the tokens of a text.
-/
import SymbolicRegression.Json.Basic

namespace SymbolicRegression

/-- A token of JSON. -/
inductive Token
  | openBrace
  | closeBrace
  | openBracket
  | closeBracket
  | colon
  | comma
  | null
  | bool (value : Bool)
  | number (numeral : Numeral)
  | string (text : JsonText)
  deriving DecidableEq, Repr

namespace Token

/-- The token that a single character is. -/
def ofMark? : Char → Option Token
  | '{' => some .openBrace
  | '}' => some .closeBrace
  | '[' => some .openBracket
  | ']' => some .closeBracket
  | ':' => some .colon
  | ',' => some .comma
  | _ => none

/-- The token that a word is. -/
def ofWord? (letters : List Char) : Option Token :=
  if letters = ['n', 'u', 'l', 'l'] then some .null
  else if letters = ['t', 'r', 'u', 'e'] then some (.bool true)
  else if letters = ['f', 'a', 'l', 's', 'e'] then some (.bool false)
  else none

end Token

/-! ## Characters -/

/-- The characters that may stand between tokens. -/
def isBlank (c : Char) : Bool := c = ' ' || c = '\n' || c = '\t' || c = '\r'

/-- The characters of words. -/
def isLetter (c : Char) : Bool := 97 ≤ c.toNat && c.toNat ≤ 122

/-- The characters that a numeral starts with. -/
def startsNumeral (c : Char) : Bool := (Digit.ofChar? c).isSome || c = '-'

/-- The characters that a numeral goes on with. -/
def continuesNumeral (c : Char) : Bool :=
  startsNumeral c || c = '+' || c = '.' || c = 'e' || c = 'E'

/-- The character that stands for itself or for a control character after a backslash. -/
def escaped? : Char → Option Char
  | '"' => some '"'
  | '\\' => some '\\'
  | '/' => some '/'
  | 'b' => some (Char.ofNat 8)
  | 'f' => some (Char.ofNat 12)
  | 'n' => some (Char.ofNat 10)
  | 'r' => some (Char.ofNat 13)
  | 't' => some (Char.ofNat 9)
  | _ => none

/-- The value of a hexadecimal digit of either case. -/
def hexValue? (c : Char) : Option Nat :=
  let n := c.toNat
  if 48 ≤ n ∧ n ≤ 57 then some (n - 48)
  else if 97 ≤ n ∧ n ≤ 102 then some (n - 87)
  else if 65 ≤ n ∧ n ≤ 70 then some (n - 55)
  else none

/-! ## Surrogate pairs -/

/-- Whether a code is the first half of a surrogate pair. -/
def isHighHalf (code : Nat) : Bool := 0xD800 ≤ code && code < 0xDC00

/-- Whether a code is the second half of a surrogate pair. -/
def isLowHalf (code : Nat) : Bool := 0xDC00 ≤ code && code < 0xE000

/-- The character of a surrogate pair. -/
def pairedChar (high low : Nat) : Char :=
  Char.ofNat (0x10000 + (high - 0xD800) * 0x400 + (low - 0xDC00))

/-- Add the code of an escape to the units read so far, the last one first.  A
second half right after a first half makes a character with it. -/
def pushCode (units : List TextUnit) (code : Nat) : List TextUnit :=
  if isLowHalf code then
    match units with
    | .half high :: earlier =>
        if isHighHalf high then .char (pairedChar high code) :: earlier
        else .half code :: units
    | _ => .half code :: units
  else if isHighHalf code then .half code :: units
  else .char (Char.ofNat code) :: units

/-! ## Scanning -/

/-- What has been read of the token under way; lists hold the last part first. -/
inductive Scan
  /-- No token is under way. -/
  | idle
  /-- The letters of a word. -/
  | word (letters : List Char)
  /-- The characters of a numeral. -/
  | numeral (chars : List Char)
  /-- The units of a string. -/
  | string (units : List TextUnit)
  /-- The units of a string and a backslash. -/
  | escape (units : List TextUnit)
  /-- The units of a string and the start of an escape by code: so many
  hexadecimal digits, and their value. -/
  | code (units : List TextUnit) (count value : Nat)

namespace Scan

/-- What a character makes when no token is under way, and the token that it completes. -/
def start (c : Char) : Option (Scan × Option Token) :=
  if isBlank c then some (.idle, none)
  else if c = '"' then some (.string [], none)
  else if isLetter c then some (.word [c], none)
  else if startsNumeral c then some (.numeral [c], none)
  else (Token.ofMark? c).map fun token => (.idle, some token)

/-- The token under way, when the text ends or a character does not belong to
it; an unclosed string is none. -/
def finish : Scan → Option (Option Token)
  | .idle => some none
  | .word letters => (Token.ofWord? letters.reverse).map some
  | .numeral chars => (Numeral.ofChars? chars.reverse).map fun n => some (.number n)
  | .string _ | .escape _ | .code _ _ _ => none

/-- What is under way after one more character of a string. -/
def stringStep (units : List TextUnit) (c : Char) : Option (Scan × Option Token) :=
  if c = '"' then some (.idle, some (.string units.reverse))
  else if c = '\\' then some (.escape units, none)
  else if c.toNat < 32 then none
  else some (.string (.char c :: units), none)

/-- What is under way after one more character, and the tokens that it completes,
the last one first, on top of those before. -/
def step : Scan × List Token → Char → Option (Scan × List Token)
  | (.string units, tokens), c => do
      let (scan, token) ← stringStep units c
      return (scan, token.toList ++ tokens)
  | (.escape units, tokens), c =>
      if c = 'u' then some (.code units 0 0, tokens)
      else (escaped? c).map fun e => (.string (.char e :: units), tokens)
  | (.code units count value, tokens), c => do
      let digit ← hexValue? c
      let value := 16 * value + digit
      if count = 3 then return (.string (pushCode units value), tokens)
      else return (.code units (count + 1) value, tokens)
  | (.word letters, tokens), c =>
      if isLetter c then some (.word (c :: letters), tokens)
      else do
        let ended ← (Scan.word letters).finish
        let (scan, token) ← start c
        return (scan, token.toList ++ ended.toList ++ tokens)
  | (.numeral chars, tokens), c =>
      if continuesNumeral c then some (.numeral (c :: chars), tokens)
      else do
        let ended ← (Scan.numeral chars).finish
        let (scan, token) ← start c
        return (scan, token.toList ++ ended.toList ++ tokens)
  | (.idle, tokens), c => do
      let (scan, token) ← start c
      return (scan, token.toList ++ tokens)

end Scan

/-- The tokens of a text. -/
def Token.scan? (cs : List Char) : Option (List Token) := do
  let (scan, tokens) ← cs.foldlM Scan.step (Scan.idle, [])
  let ended ← scan.finish
  return (ended.toList ++ tokens).reverse

end SymbolicRegression
