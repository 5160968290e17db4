/-
# Shortest decimals

Of all decimals that round to a given double, the ones with the fewest digits
lie on a grid of powers of ten.  The search tries one digit, two digits, and so
on up to seventeen, and on each grid looks at the two multiples next to the
value: if any multiple of that grid rounds to the double, one of these does.

* `Decimal` : a coefficient and a power of ten;
* `shortest` : the nearest of the shortest decimals that round to a magnitude;
* `shortest_roundsTo` : it does round to the magnitude.
-/
import SymbolicRegression.Decimal.Magnitude

namespace SymbolicRegression

/-- The number `coefficient · 10 ^ exponent`. -/
structure Decimal where
  coefficient : Nat
  exponent : Int
  deriving DecidableEq, Repr

/-- Which of two equally near neighbours is taken: the greater one, or the even one. -/
inductive Tie
  | up
  | even
  deriving DecidableEq, Repr

/-- Whether a tie between `d` and `d + 1` goes to `d + 1`. -/
def Tie.goesUp : Tie → Nat → Bool
  | .up, _ => true
  | .even, d => d % 2 = 1

/-- The multiple of `10 ^ grid` that is nearest to `v`, among the two next to it that round to
it. -/
def nearestOn (tie : Tie) (v : Magnitude) (grid : Int) : Option Nat :=
  let below := v.floorOn grid
  match v.roundsTo grid below, v.roundsTo grid (below + 1) with
  | false, false => none
  | true, false => some below
  | false, true => some (below + 1)
  | true, true =>
      let twice := 2 * v.restOn grid
      if twice < v.cell grid then some below
      else if v.cell grid < twice then some (below + 1)
      else some (if tie.goesUp below then below + 1 else below)

/-- The nearest point of a grid is taken only if it rounds to the magnitude. -/
theorem nearestOn_roundsTo {tie : Tie} {v : Magnitude} {grid : Int} {d : Nat}
    (h : nearestOn tie v grid = some d) : v.roundsTo grid d = true := by
  unfold nearestOn at h
  grind

/-- The first hit on the grids of `places`, `places + 1`, … digits, `tries` of them. -/
def searchFrom (tie : Tie) (v : Magnitude) (lead : Int) : Nat → Nat → Option Decimal
  | 0, _ => none
  | tries + 1, places =>
      let grid := lead + 1 - places
      match nearestOn tie v grid with
      | some d => some ⟨d, grid⟩
      | none => searchFrom tie v lead tries (places + 1)

/-- What is found on any grid rounds to the magnitude. -/
theorem searchFrom_roundsTo {tie : Tie} {v : Magnitude} {lead : Int} {tries places : Nat}
    {d : Decimal} (h : searchFrom tie v lead tries places = some d) :
    v.roundsTo d.exponent d.coefficient = true := by
  induction tries generalizing places with
  | zero => exact absurd h (by simp [searchFrom])
  | succ tries ih =>
    simp only [searchFrom] at h
    split at h
    · obtain rfl := Option.some.inj h
      exact nearestOn_roundsTo (by assumption)
    · exact ih h

/-- The decimal that equals `v`: a power of two below one is a multiple of a
power of ten, because five times two is ten. -/
def exactDecimal (v : Magnitude) : Decimal :=
  if 0 ≤ v.exponent then ⟨v.significand * Nat.pow 2 v.exponent.toNat, 0⟩
  else ⟨v.significand * Nat.pow 5 v.exponent.natAbs, v.exponent⟩

/-- The exact decimal equals the magnitude. -/
theorem exactDecimal_eq (v : Magnitude) :
    (exactDecimal v).coefficient * v.cell (exactDecimal v).exponent
      = v.significand * v.step (exactDecimal v).exponent := by
  unfold exactDecimal
  by_cases h : 0 ≤ v.exponent
  · rw [if_pos h]
    obtain ⟨n, hn⟩ : ∃ n : Nat, v.exponent = n := ⟨v.exponent.toNat, by omega⟩
    simp [Magnitude.cell, Magnitude.step, hn]
  · rw [if_neg h]
    obtain ⟨n, hn⟩ : ∃ n : Nat, v.exponent = -(n : Int) := ⟨v.exponent.natAbs, by omega⟩
    have five_two : Nat.pow 5 n * Nat.pow 2 n = Nat.pow 10 n := (Nat.mul_pow 5 2 n).symm
    simp only [Nat.pow_eq] at five_two
    simp [Magnitude.cell, Magnitude.step, hn, Nat.mul_assoc, five_two]

/-- The shortest decimal that rounds to `v`, nearest to `v` among those of its
length.  Seventeen digits suffice for every double, and where they did not, the
exact decimal would be taken. -/
def shortest (tie : Tie) (v : Magnitude) : Decimal :=
  (searchFrom tie v v.leadingExponent 17 1).getD (exactDecimal v)

/-- The shortest decimal of a magnitude other than zero rounds to it. -/
theorem shortest_roundsTo {tie : Tie} {v : Magnitude} (positive : 0 < v.significand) :
    v.roundsTo (shortest tie v).exponent (shortest tie v).coefficient = true := by
  unfold shortest
  cases h : searchFrom tie v v.leadingExponent 17 1 with
  | some d => exact searchFrom_roundsTo h
  | none => exact Magnitude.roundsTo_of_eq positive (exactDecimal_eq v)

end SymbolicRegression
