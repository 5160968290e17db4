/-
# The value of a numeral

A numeral without point and power of ten that fits into 64 bits is an integer.
Any other numeral is a double, found by scaling its leading digits: the digits
that fit into 64 bits make a significand, which is rounded to a double and then
multiplied or divided by a power of ten.  The result may differ from the double
nearest to the numeral.

* `Number` : the value of a numeral;
* `Significand` : the digits that count, and a power of ten;
* `Number.ofNumeral?` : the value, unless it is beyond all doubles.
-/
import SymbolicRegression.Json.Basic

namespace SymbolicRegression

/-- The value of a numeral. -/
inductive Number
  /-- An integer that is not negative. -/
  | natural (n : Nat)
  /-- The integer `-n`, for a positive `n`. -/
  | negative (n : Nat)
  /-- A double. -/
  | real (value : Float)
  deriving DecidableEq, Repr

/-! ## The digits that count -/

/-- One more than the greatest 64-bit number. -/
def wordBound : Nat := Nat.pow 2 64

/-- One more than the greatest 32-bit number. -/
def halfWordBound : Nat := Nat.pow 2 32

/-- The number `digits · 10 ^ exponent`, where `digits` is less than `wordBound`. -/
structure Significand where
  digits : Nat
  exponent : Int
  deriving DecidableEq, Repr

namespace Significand

/-- Add the digits before the point.  From the first digit on that does not fit,
each one counts as a factor of ten. -/
def addWhole (s : Significand) : List Digit → Significand
  | [] => s
  | d :: rest =>
      if 10 * s.digits + d.val < wordBound then
        { s with digits := 10 * s.digits + d.val }.addWhole rest
      else { s with exponent := s.exponent + (rest.length + 1) }

/-- Add the digits after the point, up to the first one that does not fit. -/
def addFraction (s : Significand) : List Digit → Significand
  | [] => s
  | d :: rest =>
      if 10 * s.digits + d.val < wordBound then
        addFraction ⟨10 * s.digits + d.val, s.exponent - 1⟩ rest
      else s

/-- The digits of a numeral that count; its power of ten is not yet in the exponent. -/
def ofNumeral (n : Numeral) : Significand :=
  (addWhole ⟨0, 0⟩ n.whole).addFraction n.fraction

end Significand

/-! ## Scaling -/

/-- The least and the greatest exponent, which are those of a 32-bit integer. -/
def clampExponent (e : Int) : Int := max (-2147483648) (min e 2147483647)

/-- The double nearest to a power of ten. -/
def tenTo (n : Nat) : Float := Float.ofScientific 1 false n

/-- `f · 10 ^ exponent`, unless that is beyond all doubles.  Exponents below
-308 are taken in steps of 308, of which `steps` suffice. -/
def scale (f : Float) (exponent : Int) : Nat → Option Float
  | 0 => some f
  | steps + 1 =>
      if exponent.natAbs ≤ 308 then
        if 0 ≤ exponent then
          let product := f * tenTo exponent.natAbs
          if product.isInf then none else some product
        else some (f / tenTo exponent.natAbs)
      else if f == 0.0 then some f
      else if 0 ≤ exponent then none
      else scale (f / tenTo 308) (exponent + 308) steps

/-- The double that a significand denotes, unless it is beyond all doubles. -/
def Significand.toFloat? (s : Significand) : Option Float :=
  scale (Float.ofNat s.digits) s.exponent (s.exponent.natAbs / 308 + 1)

/-- The double of a significand times a written power of ten.  A written
exponent that does not fit into 32 bits makes zero, or is beyond all doubles. -/
def Significand.withExponent? (s : Significand) (e : Exponent) : Option Float :=
  let power := valueOf e.digits
  if power ≤ 2147483647 then
    let exponent := if e.sign = .minus then s.exponent - power else s.exponent + power
    { s with exponent := clampExponent exponent }.toFloat?
  else if e.sign = .minus ∨ s.digits = 0 then some 0.0
  else none

/-- The double of a numeral without its sign. -/
def Numeral.unsignedFloat? (n : Numeral) : Option Float :=
  match n.exponent with
  | none => (Significand.ofNumeral n).toFloat?
  | some e => (Significand.ofNumeral n).withExponent? e

/-- The integer of a numeral, if it has no point and no power of ten, fits into
64 bits, and is not minus zero. -/
def Numeral.integer? (n : Numeral) : Option Number :=
  if n.fraction = [] ∧ n.exponent = none then
    let value := valueOf n.whole
    if n.negative then
      if 0 < value ∧ value ≤ Nat.pow 2 63 then some (.negative value) else none
    else if value < wordBound then some (.natural value) else none
  else none

namespace Number

/-- The value of a numeral, unless it is beyond all doubles. -/
def ofNumeral? (n : Numeral) : Option Number :=
  match n.integer? with
  | some number => some number
  | none => n.unsignedFloat?.map fun f => .real (if n.negative then -f else f)

/-- The double nearest to a number. -/
def toFloat : Number → Float
  | .natural n => Float.ofNat n
  | .negative n => -Float.ofNat n
  | .real value => value

end Number

namespace Json

/-- The number that a value is. -/
def number? : Json → Option Number
  | .number n => Number.ofNumeral? n
  | _ => none

/-- The double that a value is; integers count as doubles. -/
def float? (json : Json) : Option Float := json.number?.map Number.toFloat

/-- The natural number below a bound that a value is. -/
def natBelow? (bound : Nat) (json : Json) : Option Nat :=
  match json.number? with
  | some (.natural n) => if n < bound then some n else none
  | _ => none

end Json

end SymbolicRegression
