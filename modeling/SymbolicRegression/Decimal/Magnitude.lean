/-
# The exact value of a double

A finite double is a sign and a magnitude `significand · 2 ^ exponent`.  The
functions here compare a magnitude with the multiples of a power of ten in
exact natural-number arithmetic.

* `Magnitude.ofFloat` : the magnitude of a finite double;
* `Magnitude.floorOn` : how many whole steps of `10 ^ grid` fit into it;
* `Magnitude.leadingExponent` : the power of ten of its first decimal digit;
* `Magnitude.roundsTo` : which multiples of `10 ^ grid` round to it.
-/
import SymbolicRegression.Decimal.Numeral

namespace SymbolicRegression

/-- Whether the sign bit of a double is set; it is for `-0.0`. -/
def signBit (x : Float) : Bool := Nat.pow 2 63 ≤ x.toBits.toNat

/-- The non-negative number `significand · 2 ^ exponent`. -/
structure Magnitude where
  significand : Nat
  exponent : Int
  deriving DecidableEq, Repr

namespace Magnitude

/-- The magnitude that the low 63 bits of a double stand for, when they are not
those of an infinity or a NaN: 52 bits of fraction below 11 bits of biased exponent. -/
def ofBits (bits : Nat) : Magnitude :=
  let biased : Nat := bits / Nat.pow 2 52 % Nat.pow 2 11
  let fraction := bits % Nat.pow 2 52
  if biased = 0 then ⟨fraction, -1074⟩ else ⟨Nat.pow 2 52 + fraction, (biased : Int) - 1075⟩

/-- The magnitude of a finite double. -/
def ofFloat (x : Float) : Magnitude := ofBits (x.toBits.toNat)

/-! ## Comparison with a decimal grid

Dividing `significand · 2 ^ exponent` by `10 ^ grid` gives the fraction
`significand * step grid / cell grid`, in which both are natural numbers. -/

/-- What one unit of the significand contributes to the numerator. -/
def step (v : Magnitude) (grid : Int) : Nat :=
  Nat.pow 2 v.exponent.toNat * Nat.pow 10 (-grid).toNat

/-- The denominator, which is one cell of the grid. -/
def cell (v : Magnitude) (grid : Int) : Nat :=
  Nat.pow 10 grid.toNat * Nat.pow 2 (-v.exponent).toNat

/-- Every grid has cells of some size. -/
theorem cell_pos (v : Magnitude) (grid : Int) : 0 < v.cell grid :=
  Nat.mul_pos (Nat.pow_pos (by decide)) (Nat.pow_pos (by decide))

/-- Every unit of the significand contributes something. -/
theorem step_pos (v : Magnitude) (grid : Int) : 0 < v.step grid :=
  Nat.mul_pos (Nat.pow_pos (by decide)) (Nat.pow_pos (by decide))

/-- The greatest multiple of `10 ^ grid` that is at most `v`, counted in steps of `10 ^ grid`. -/
def floorOn (v : Magnitude) (grid : Int) : Nat := v.significand * v.step grid / v.cell grid

/-- What is left of `v` above `floorOn`, in units of which `cell grid` make a step of the grid. -/
def restOn (v : Magnitude) (grid : Int) : Nat := v.significand * v.step grid % v.cell grid

/-- The exponent `e` with `10 ^ e ≤ v < 10 ^ (e + 1)`, for `v` other than zero. -/
def leadingExponent (v : Magnitude) : Int :=
  if v.floorOn 0 = 0 then
    -(digitCount ((v.cell 0 - 1) / (v.significand * v.step 0)) : Int)
  else (digitCount (v.floorOn 0) : Int) - 1

/-! ## The decimals that round to a double -/

/-- How far below `v` its rounding interval reaches, in quarters of the last
place: half a place, or a quarter where the doubles below are twice as dense. -/
def quartersBelow (v : Magnitude) : Nat :=
  if v.significand = Nat.pow 2 52 ∧ -1074 < v.exponent then 1 else 2

/-- Whether `d · 10 ^ grid` rounds to the double of magnitude `v`.  The two ends
of the interval do so exactly when the significand is even. -/
def roundsTo (v : Magnitude) (grid : Int) (d : Nat) : Bool :=
  let low := (4 * v.significand - v.quartersBelow) * v.step grid
  let high := (4 * v.significand + 2) * v.step grid
  let point := 4 * d * v.cell grid
  if v.significand % 2 = 0 then low ≤ point && point ≤ high else low < point && point < high

/-- A decimal that equals `v` rounds to it. -/
theorem roundsTo_of_eq {v : Magnitude} {grid : Int} {d : Nat} (positive : 0 < v.significand)
    (h : d * v.cell grid = v.significand * v.step grid) : v.roundsTo grid d = true := by
  have quarters : 1 ≤ v.quartersBelow ∧ v.quartersBelow ≤ 2 := by
    unfold quartersBelow; split <;> omega
  have point : 4 * d * v.cell grid = 4 * v.significand * v.step grid := by
    rw [Nat.mul_assoc, h, Nat.mul_assoc]
  have low : (4 * v.significand - v.quartersBelow) * v.step grid < 4 * d * v.cell grid := by
    rw [point]; exact Nat.mul_lt_mul_of_pos_right (by omega) (v.step_pos grid)
  have high : 4 * d * v.cell grid < (4 * v.significand + 2) * v.step grid := by
    rw [point]; exact Nat.mul_lt_mul_of_pos_right (by omega) (v.step_pos grid)
  simp only [roundsTo]
  split
  · simp [Nat.le_of_lt low, Nat.le_of_lt high]
  · simp [low, high]

end Magnitude

end SymbolicRegression
