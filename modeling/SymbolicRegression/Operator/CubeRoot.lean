/-
# Cube roots

The cube root of a double, rounded to the nearest double.  It is found in exact
natural-number arithmetic: the 53 leading bits of the root come from a search bit
by bit, and one more comparison tells to which side it is rounded.

* `floorCubeRoot` : the greatest natural number whose cube is at most a given one;
* `cubeRoot` : the double nearest to the cube root of a double.
-/
import SymbolicRegression.Decimal.Magnitude

namespace SymbolicRegression

/-! ## Natural numbers -/

/-- The third power of `n`. -/
def cube (n : Nat) : Nat := n * n * n

/-- Add to `root` those of the bits below `Nat.pow 2 bits` with which its cube stays at most `n`. -/
def extendCubeRoot (n : Nat) : Nat → Nat → Nat
  | 0, root => root
  | bits + 1, root =>
      let next := root + Nat.pow 2 bits
      extendCubeRoot n bits (if cube next ≤ n then next else root)

/-- The greatest number below `Nat.pow 2 bits` whose cube is at most `n`. -/
def floorCubeRoot (bits n : Nat) : Nat := extendCubeRoot n bits 0

/-- Bit by bit a lower bound of the cube root is extended to the root itself. -/
theorem extendCubeRoot_bounds {n bits root : Nat} (low : cube root ≤ n)
    (high : n < cube (root + Nat.pow 2 bits)) :
    cube (extendCubeRoot n bits root) ≤ n ∧ n < cube (extendCubeRoot n bits root + 1) := by
  induction bits generalizing root with
  | zero => exact ⟨low, high⟩
  | succ bits ih =>
    simp only [extendCubeRoot]
    by_cases h : cube (root + Nat.pow 2 bits) ≤ n
    · rw [if_pos h]
      refine ih h ?_
      have double : root + Nat.pow 2 bits + Nat.pow 2 bits = root + Nat.pow 2 (bits + 1) := by
        have := Nat.pow_succ (n := 2) (m := bits)
        simp only [Nat.pow_eq] at this ⊢
        omega
      rwa [double]
    · rw [if_neg h]
      exact ih low (Nat.lt_of_not_le h)

/-- A number below the cube of `Nat.pow 2 bits` lies between the cubes of its root and
the number after it. -/
theorem floorCubeRoot_bounds {bits n : Nat} (h : n < cube (Nat.pow 2 bits)) :
    cube (floorCubeRoot bits n) ≤ n ∧ n < cube (floorCubeRoot bits n + 1) :=
  extendCubeRoot_bounds (Nat.zero_le _) (by rwa [Nat.zero_add])

/-! ## Doubles -/

/-- The number nearest to the cube root of `n`.  There are no ties: eight times
`n` is even, and the cube of an odd number is odd. -/
def nearestCubeRoot (bits n : Nat) : Nat :=
  let root := floorCubeRoot bits n
  if cube (2 * root + 1) < 8 * n then root + 1 else root

/-- The bits of the positive double `significand · 2 ^ exponent`, for a
significand from `2 ^ 52` to `2 ^ 53` and an exponent that is not extreme. -/
def normalBits (significand : Nat) (exponent : Int) : Nat :=
  (exponent + 1075).toNat * Nat.pow 2 52 + (significand - Nat.pow 2 52)

/-- The bits of the double nearest to the cube root of a magnitude other than zero. -/
def Magnitude.cubeRootBits (v : Magnitude) : Nat :=
  let lead := (v.significand.log2 + v.exponent) / 3
  let exponent := lead - 52
  let scaled := v.significand * Nat.pow 2 (v.exponent - 3 * exponent).toNat
  normalBits (nearestCubeRoot 53 scaled) exponent

/-- The double nearest to the cube root of `x`, which has the sign of `x`. -/
def cubeRoot (x : Float) : Float :=
  let v := Magnitude.ofFloat x
  if !x.isFinite || v.significand = 0 then x
  else
    let root := Float.ofBits (UInt64.ofNat v.cubeRootBits)
    if signBit x then -root else root

end SymbolicRegression
