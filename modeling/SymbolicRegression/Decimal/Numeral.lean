/-
# Decimal numerals

The written form of a decimal number: a sign, the digits before and after the
point, and a power of ten.

* `Digit`, `digitsOf`, `valueOf` : digits, the digits of a natural number, and
  the number that a list of digits denotes;
* `Numeral` : a numeral, with `Numeral.chars` for its characters;
* `Numeral.ofChars?` : the numeral that a list of characters spells.
-/

namespace SymbolicRegression

/-! ## Digits -/

/-- A decimal digit. -/
abbrev Digit := Fin 10

namespace Digit

/-- The digit `0`. -/
def zero : Digit := ⟨0, by decide⟩

/-- The last decimal digit of `n`. -/
def last (n : Nat) : Digit := ⟨n % 10, Nat.mod_lt _ (by decide)⟩

/-- The character that stands for a digit. -/
def char (d : Digit) : Char := Char.ofNat (48 + d.val)

/-- The digit that a character stands for; only the ten ASCII digits do. -/
def ofChar? (c : Char) : Option Digit :=
  if h : 48 ≤ c.toNat ∧ c.toNat ≤ 57 then some ⟨c.toNat - 48, by omega⟩ else none

/-- The character of a digit stands for that digit. -/
theorem ofChar?_char (d : Digit) : ofChar? d.char = some d := by
  revert d; decide

end Digit

/-- Peel the last digits of `n` onto `later`, at most `steps` of them. -/
def peelDigits : Nat → Nat → List Digit → List Digit
  | 0, _, later => later
  | steps + 1, n, later =>
      if n < 10 then Digit.last n :: later
      else peelDigits steps (n / 10) (Digit.last n :: later)

/-- The decimal digits of `n`, most significant first; zero has the one digit `0`. -/
def digitsOf (n : Nat) : List Digit := peelDigits (n + 1) n []

/-- The number that a list of digits denotes, most significant first. -/
def valueOf (digits : List Digit) : Nat := digits.foldl (fun n d => 10 * n + d.val) 0

theorem valueOf_nil : valueOf [] = 0 := rfl

/-- One more digit shifts those before it. -/
theorem valueOf_concat (ds : List Digit) (d : Digit) :
    valueOf (ds ++ [d]) = 10 * valueOf ds + d.val := by
  simp [valueOf]

/-- How many decimal digits `n` has, where zero counts as having none. -/
def digitCount (n : Nat) : Nat := if n = 0 then 0 else (digitsOf n).length

/-! ## Numerals -/

/-- How the sign of a power of ten is written: not at all, as `+`, or as `-`. -/
inductive ExponentSign
  | bare
  | plus
  | minus
  deriving DecidableEq, Repr

/-- The characters of an exponent's sign. -/
def ExponentSign.chars : ExponentSign → List Char
  | .bare => []
  | .plus => ['+']
  | .minus => ['-']

/-- The power of ten at the end of a numeral. -/
structure Exponent where
  sign : ExponentSign
  digits : List Digit
  deriving DecidableEq, Repr

/-- A decimal numeral.  An empty `fraction` means that no point is written. -/
structure Numeral where
  negative : Bool := false
  whole : List Digit
  fraction : List Digit := []
  exponent : Option Exponent := none
  deriving DecidableEq, Repr

namespace Numeral

/-- The numeral of a natural number: its digits and nothing else. -/
def ofNat (n : Nat) : Numeral := { whole := digitsOf n }

/-- The characters of a numeral. -/
def chars (n : Numeral) : List Char :=
  (if n.negative then ['-'] else [])
    ++ n.whole.map Digit.char
    ++ (if n.fraction = [] then [] else '.' :: n.fraction.map Digit.char)
    ++ (match n.exponent with
        | none => []
        | some e => 'e' :: (e.sign.chars ++ e.digits.map Digit.char))

/-- The text of a numeral. -/
def text (n : Numeral) : String := String.ofList n.chars

/-! ## Reading a numeral -/

/-- Split off the digits that a list of characters starts with. -/
def spanDigits : List Char → List Digit × List Char
  | [] => ([], [])
  | c :: rest =>
      match Digit.ofChar? c with
      | none => ([], c :: rest)
      | some d => let (digits, after) := spanDigits rest; (d :: digits, after)

/-- The digits at the beginning of a text are read up to the first character that is none.
-/
theorem spanDigits_map_char_append (ds : List Digit) (rest : List Char)
    (h : ∀ c ∈ rest.head?, Digit.ofChar? c = none) :
    spanDigits (ds.map Digit.char ++ rest) = (ds, rest) := by
  induction ds with
  | nil =>
    cases rest with
    | nil => rfl
    | cons c cs => simp [spanDigits, h c (by simp)]
  | cons d ds ih => simp [spanDigits, Digit.ofChar?_char, ih]

/-- Read the part of a numeral that follows its whole digits: a point with at least one digit. -/
def readFraction : List Char → Option (List Digit × List Char)
  | '.' :: rest =>
      match spanDigits rest with
      | ([], _) => none
      | (digits, after) => some (digits, after)
  | rest => some ([], rest)

/-- Read the sign of a power of ten. -/
def readExponentSign : List Char → ExponentSign × List Char
  | '+' :: rest => (.plus, rest)
  | '-' :: rest => (.minus, rest)
  | rest => (.bare, rest)

/-- Read the power of ten at the end of a numeral: nothing may follow it. -/
def readExponent : List Char → Option (Option Exponent)
  | [] => some none
  | c :: rest =>
      if c = 'e' ∨ c = 'E' then
        let (sign, rest) := readExponentSign rest
        match spanDigits rest with
        | ([], _) => none
        | (digits, []) => some (some ⟨sign, digits⟩)
        | (_, _ :: _) => none
      else none

/-- Whether digits may stand before the point: at least one, and a zero only alone. -/
def wholeAllowed (digits : List Digit) : Bool :=
  match digits with
  | [] => false
  | d :: rest => d.val ≠ 0 || rest = []

/-- The numeral that `cs` spells, all of it.  A sign is `-` alone, digits must
stand on both sides of a point and after a letter `e`, and no zero leads. -/
def ofChars? (cs : List Char) : Option Numeral := do
  let (negative, cs) := match cs with
    | '-' :: rest => (true, rest)
    | _ => (false, cs)
  let (whole, cs) := spanDigits cs
  guard (wholeAllowed whole)
  let (fraction, cs) ← readFraction cs
  let exponent ← readExponent cs
  return { negative, whole, fraction, exponent }

end Numeral

end SymbolicRegression
