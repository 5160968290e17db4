/-
# How a double is written

A style fixes what `shortest` leaves open: up to which size a number is written
positionally, whether an integral value keeps its point, how the sign of a power
of ten is shown, and which way ties go.

* `NumeralStyle` : the style;
* `NumeralStyle.numeral` : the numeral of a finite double;
* `NumeralStyle.chars`, `NumeralStyle.text` : the text of any double.
-/
import SymbolicRegression.Decimal.Shortest

namespace SymbolicRegression

/-- The open choices in writing a double as a decimal numeral.  A number whose
first digit stands for `10 ^ e` is positional when `positionalFrom ≤ e` and
`e < positionalBelow`; a bound that is absent does not limit. -/
structure NumeralStyle where
  tie : Tie
  positionalFrom : Option Int
  positionalBelow : Option Int
  /-- Whether a positional numeral has a point even when the value is integral. -/
  pointZero : Bool
  /-- Whether a positive power of ten is written with a `+`. -/
  exponentPlus : Bool

namespace NumeralStyle

/-- Whether a number with leading exponent `e` is written positionally. -/
def positional (s : NumeralStyle) (e : Int) : Bool :=
  (match s.positionalFrom with | none => true | some low => low ≤ e)
    && (match s.positionalBelow with | none => true | some high => e < high)

/-- The digits after the point of an integral value. -/
def integralFraction (s : NumeralStyle) : List Digit := if s.pointZero then [Digit.zero] else []

/-- Drop the zeros at the end of a list of digits. -/
def trimZeros (digits : List Digit) : List Digit :=
  (digits.reverse.dropWhile (· = Digit.zero)).reverse

/-- The numeral `0.digits · 10 ^ point`, with no power of ten written. -/
def positionalNumeral (s : NumeralStyle) (negative : Bool) (digits : List Digit) (point : Int) :
    Numeral :=
  if point ≤ 0 then
    { negative
      whole := [Digit.zero]
      fraction := List.replicate (-point).toNat Digit.zero ++ digits }
  else if digits.length ≤ point.toNat then
    { negative
      whole := digits ++ List.replicate (point.toNat - digits.length) Digit.zero
      fraction := s.integralFraction }
  else { negative, whole := digits.take point.toNat, fraction := digits.drop point.toNat }

/-- The numeral `d.igits · 10 ^ lead`, with the power of ten written. -/
def scientificNumeral (s : NumeralStyle) (negative : Bool) (digits : List Digit) (lead : Int) :
    Numeral :=
  let sign : ExponentSign :=
    if lead < 0 then .minus else if s.exponentPlus then .plus else .bare
  { negative
    whole := digits.take 1
    fraction := digits.drop 1
    exponent := some ⟨sign, digitsOf lead.natAbs⟩ }

/-- The numeral of a finite double: its shortest digits, laid out in the style. -/
def numeral (s : NumeralStyle) (x : Float) : Numeral :=
  let v := Magnitude.ofFloat x
  if v.significand = 0 then
    { negative := signBit x, whole := [Digit.zero], fraction := s.integralFraction }
  else
    let decimal := shortest s.tie v
    let written := digitsOf decimal.coefficient
    let point : Int := written.length + decimal.exponent
    let digits := trimZeros written
    if s.positional (point - 1) then s.positionalNumeral (signBit x) digits point
    else s.scientificNumeral (signBit x) digits (point - 1)

/-- The numeral of a double, if it is finite. -/
def numeral? (s : NumeralStyle) (x : Float) : Option Numeral :=
  if x.isFinite then some (s.numeral x) else none

/-- The characters of a double: its numeral, or `NaN`, `inf`, `-inf`. -/
def chars (s : NumeralStyle) (x : Float) : List Char :=
  match s.numeral? x with
  | some n => n.chars
  | none =>
      if x.isNaN then ['N', 'a', 'N']
      else if signBit x then ['-', 'i', 'n', 'f'] else ['i', 'n', 'f']

/-- The text of a double. -/
def text (s : NumeralStyle) (x : Float) : String := String.ofList (s.chars x)

end NumeralStyle

end SymbolicRegression
