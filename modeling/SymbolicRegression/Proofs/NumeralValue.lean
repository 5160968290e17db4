/-
# The value of a written double

The layout of a numeral does not change its value: however a style writes a double, the
numeral has the value of the shortest decimal, and that lies at most half a place above
the double.

* `Numeral.value`, `Decimal.value` : the values of numerals and decimals;
* `Magnitude.mem_interval_of_roundsTo` : the interval of what rounds to a magnitude;
* `NumeralStyle.value_numeral` : **a double is written with the value of its shortest
  decimal**;
* `Decimal.value_le_of_roundsTo` : how far above a double its decimal can be.
-/
import SymbolicRegression.Proofs.Amount
import SymbolicRegression.Proofs.Numeral

namespace SymbolicRegression

/-! ## Digits -/

/-- Digits that are appended shift what stands before them. -/
theorem valueOf_append (ds es : List Digit) :
    valueOf (ds ++ es) = valueOf ds * 10 ^ es.length + valueOf es := by
  induction es using List.reverseRecOn with
  | nil => simp [valueOf_nil]
  | append_singleton es e ih =>
    rw [← List.append_assoc, valueOf_concat, ih, valueOf_concat, List.length_append,
      List.length_singleton, Nat.pow_succ]
    ring

/-- The first digit weighs a power of ten for every digit after it. -/
theorem valueOf_cons (d : Digit) (ds : List Digit) :
    valueOf (d :: ds) = d.val * 10 ^ ds.length + valueOf ds := by
  have h := valueOf_append [d] ds
  simpa [valueOf] using h

/-- A digit that is read goes behind those before it. -/
theorem mul_pow_add_valueOf_cons (n : Nat) (d : Digit) (ds : List Digit) :
    n * 10 ^ (d :: ds).length + valueOf (d :: ds) =
      (10 * n + d.val) * 10 ^ ds.length + valueOf ds := by
  rw [valueOf_cons, List.length_cons, Nat.pow_succ]
  ring

/-- Zeros alone denote zero. -/
theorem valueOf_replicate_zero (n : Nat) : valueOf (List.replicate n Digit.zero) = 0 := by
  induction n with
  | zero => rfl
  | succ n ih =>
    rw [List.replicate_succ, valueOf_cons, ih]
    simp [Digit.zero]

/-- Digits denote a number below the power of ten of their count. -/
theorem valueOf_lt (ds : List Digit) : valueOf ds < 10 ^ ds.length := by
  induction ds using List.reverseRecOn with
  | nil => decide
  | append_singleton ds d ih =>
    rw [valueOf_concat, List.length_append, List.length_singleton, Nat.pow_succ]
    omega

/-- Digits of which no zero leads denote a number of as many digits. -/
theorem pow_le_valueOf_cons {d : Digit} (rest : List Digit) (hd : d ≠ Digit.zero) :
    10 ^ rest.length ≤ valueOf (d :: rest) := by
  have hpos : 0 < d.val := Nat.pos_of_ne_zero fun h => hd (Fin.ext h)
  rw [valueOf_cons]
  calc 10 ^ rest.length ≤ d.val * 10 ^ rest.length := Nat.le_mul_of_pos_left _ hpos
    _ ≤ d.val * 10 ^ rest.length + valueOf rest := Nat.le_add_right _ _

/-- What is dropped are zeros. -/
theorem NumeralStyle.exists_eq_trimZeros_append (ds : List Digit) :
    ∃ n, ds = trimZeros ds ++ List.replicate n Digit.zero := by
  refine ⟨(ds.reverse.takeWhile (· = Digit.zero)).length, ?_⟩
  have hzeros : ds.reverse.takeWhile (· = Digit.zero) =
      List.replicate (ds.reverse.takeWhile (· = Digit.zero)).length Digit.zero := by
    refine List.eq_replicate_of_mem fun d hd => ?_
    simpa using List.mem_takeWhile_imp hd
  rw [← List.reverse_replicate, ← hzeros, trimZeros, ← List.reverse_append,
    List.takeWhile_append_dropWhile, List.reverse_reverse]

/-! ## Numerals -/

/-- The power of ten that is written. -/
def Exponent.power (e : Exponent) : Int :=
  if e.sign = .minus then -(valueOf e.digits : Int) else valueOf e.digits

namespace Numeral

/-- The power of ten that the last digit of a numeral stands for. -/
def grid (n : Numeral) : Int :=
  (match n.exponent with
    | none => 0
    | some e => e.power) - n.fraction.length

/-- The value of a numeral without its sign. -/
def value (n : Numeral) : ℚ := valueOf (n.whole ++ n.fraction) * 10 ^ n.grid

end Numeral

/-! ## Decimals -/

/-- The value of a decimal. -/
def Decimal.value (d : Decimal) : ℚ := d.coefficient * 10 ^ d.exponent

namespace Magnitude

variable {v : Magnitude} {grid : Int}

/-- Four times the lower end of the interval of what rounds to a magnitude. -/
def low (v : Magnitude) : ℚ := (4 * v.significand - v.quartersBelow) * 2 ^ v.exponent

/-- Four times the upper end of the interval of what rounds to a magnitude. -/
def high (v : Magnitude) : ℚ := (4 * v.significand + 2) * 2 ^ v.exponent

/-- By how much the comparison with a grid enlarges numbers. -/
def scale (v : Magnitude) (grid : Int) : ℚ := v.cell grid / 10 ^ grid

/-- The comparison with a grid keeps the order. -/
theorem scale_pos (v : Magnitude) (grid : Int) : 0 < v.scale grid := by
  have hcell : (0 : ℚ) < v.cell grid := by exact_mod_cast v.cell_pos grid
  rw [scale]
  positivity

/-- A cell is a step of the grid, enlarged. -/
theorem cell_eq : (v.cell grid : ℚ) = v.scale grid * 10 ^ grid :=
  (div_mul_cancel₀ _ (by positivity)).symm

/-- A step is one unit of the significand, enlarged. -/
theorem step_eq : (v.step grid : ℚ) = v.scale grid * 2 ^ v.exponent := by
  rw [scale, div_mul_eq_mul_div, eq_div_iff (by positivity), v.step_mul_zpow]

/-- Units of the significand against cells, as numbers. -/
theorem mul_step_le_iff {n k : ℕ} :
    n * v.step grid ≤ k * v.cell grid ↔ (n : ℚ) * 2 ^ v.exponent ≤ k * 10 ^ grid := by
  rw [← mul_le_mul_iff_right₀ (scale_pos v grid), mul_left_comm, ← step_eq,
    mul_left_comm, ← cell_eq]
  exact_mod_cast Iff.rfl

/-- Cells against units of the significand, as numbers. -/
theorem mul_cell_le_iff {n k : ℕ} :
    k * v.cell grid ≤ n * v.step grid ↔ (k : ℚ) * 10 ^ grid ≤ n * 2 ^ v.exponent := by
  rw [← mul_le_mul_iff_right₀ (scale_pos v grid), mul_left_comm, ← cell_eq,
    mul_left_comm, ← step_eq]
  exact_mod_cast Iff.rfl

/-- **What rounds to a magnitude lies in its interval**, and inside if the significand is odd. -/
theorem mem_interval_of_roundsTo {d : Decimal}
    (h : v.roundsTo d.exponent d.coefficient = true) :
    (v.low ≤ 4 * d.value ∧ 4 * d.value ≤ v.high) ∧
      (v.significand % 2 = 1 → v.low < 4 * d.value ∧ 4 * d.value < v.high) := by
  have hpoint : ((4 * d.coefficient : ℕ) : ℚ) * 10 ^ d.exponent = 4 * d.value := by
    rw [Decimal.value]
    push_cast
    ring
  have hhigh : ((4 * v.significand + 2 : ℕ) : ℚ) * 2 ^ v.exponent = v.high := by
    rw [high]
    push_cast
    rfl
  -- the lower end is cut off at zero
  have hlow : v.low ≤ ((4 * v.significand - v.quartersBelow : ℕ) : ℚ) * 2 ^ v.exponent := by
    have hcut : 4 * v.significand ≤ 4 * v.significand - v.quartersBelow + v.quartersBelow := by
      omega
    have hcast : 4 * (v.significand : ℚ) ≤
        (4 * v.significand - v.quartersBelow : ℕ) + v.quartersBelow := by exact_mod_cast hcut
    exact mul_le_mul_of_nonneg_right (by linarith) (by positivity)
  simp only [roundsTo] at h
  split at h
  · rename_i heven
    rw [Bool.and_eq_true, decide_eq_true_eq, decide_eq_true_eq, mul_step_le_iff, mul_cell_le_iff,
      hpoint, hhigh] at h
    exact ⟨⟨hlow.trans h.1, h.2⟩, fun hodd => by omega⟩
  · rw [Bool.and_eq_true, decide_eq_true_eq, decide_eq_true_eq, ← not_le, ← not_le,
      mul_step_le_iff, mul_cell_le_iff, hpoint, hhigh, not_le, not_le] at h
    have hinside := hlow.trans_lt h.1
    exact ⟨⟨hinside.le, h.2.le⟩, fun _ => ⟨hinside, h.2⟩⟩

end Magnitude

namespace Decimal

/-- A decimal that rounds to a double is at most half a place above it. -/
theorem value_le_of_roundsTo {d : Decimal} {v : Magnitude}
    (h : v.roundsTo d.exponent d.coefficient = true) :
    d.value ≤ (v.significand + 1 / 2) * 2 ^ v.exponent := by
  have hhigh : 4 * d.value ≤ (4 * v.significand + 2) * 2 ^ v.exponent :=
    (Magnitude.mem_interval_of_roundsTo h).1.2
  linarith

/-- The first digit of a decimal is not zero. -/
theorem zpow_le_value {d : Decimal} (hd : 0 < d.coefficient) :
    10 ^ (((digitsOf d.coefficient).length : Int) + d.exponent - 1) ≤ d.value := by
  obtain ⟨first, rest, hdigits, hfirst⟩ := digitsOf_eq hd
  have hle := pow_le_valueOf_cons rest hfirst
  rw [← hdigits, valueOf_digitsOf] at hle
  have hcast : (10 : ℚ) ^ rest.length ≤ d.coefficient := by exact_mod_cast hle
  have hpower : ((digitsOf d.coefficient).length : Int) + d.exponent - 1 =
      rest.length + d.exponent := by
    rw [hdigits, List.length_cons]
    omega
  rw [hpower, zpow_add₀ (by norm_num), zpow_natCast, value]
  exact mul_le_mul_of_nonneg_right hcast (by positivity)

end Decimal

/-! ## Layout -/

namespace NumeralStyle

variable (s : NumeralStyle) (negative : Bool) (digits : List Digit)

/-- The fraction of a number without one denotes zero. -/
theorem valueOf_integralFraction : valueOf s.integralFraction = 0 := by
  rw [integralFraction]
  split <;> rfl

/-- Digits that are written around a point have the value that the place of the point gives
them. -/
theorem value_positionalNumeral (point : Int) :
    (s.positionalNumeral negative digits point).value =
      valueOf digits * 10 ^ (point - digits.length) := by
  rw [positionalNumeral]
  split
  · rename_i hpoint
    have hvalue : valueOf ([Digit.zero] ++ (List.replicate (-point).toNat Digit.zero ++ digits)) =
        valueOf digits := by
      rw [← List.append_assoc, valueOf_append, valueOf_append, valueOf_replicate_zero]
      simp [valueOf, Digit.zero]
    have hgrid : (0 : Int) - (List.replicate (-point).toNat Digit.zero ++ digits).length =
        point - digits.length := by
      rw [List.length_append, List.length_replicate]
      omega
    rw [Numeral.value, Numeral.grid]
    simp only [hvalue, hgrid]
  · split
    · rename_i hpoint hlength
      obtain ⟨n, hn⟩ : ∃ n : Nat, point.toNat - digits.length = n := ⟨_, rfl⟩
      have hpower : point - digits.length = n := by omega
      have hcancel : (10 : ℚ) ^ s.integralFraction.length *
          10 ^ ((0 : Int) - s.integralFraction.length) = 1 := by
        rw [← zpow_natCast, ← zpow_add₀ (by norm_num), add_sub_cancel, zpow_zero]
      rw [Numeral.value, Numeral.grid]
      simp only [hn, hpower, valueOf_append, valueOf_replicate_zero, valueOf_integralFraction,
        List.length_replicate, zpow_natCast]
      push_cast
      rw [add_zero, add_zero, mul_assoc, hcancel, mul_one]
    · rename_i hpoint hlength
      have hgrid : (0 : Int) - (digits.drop point.toNat).length = point - digits.length := by
        rw [List.length_drop]
        omega
      rw [Numeral.value, Numeral.grid]
      simp only [List.take_append_drop, hgrid]

/-- The power of ten that is written is the leading exponent, whichever sign it is written
with. -/
theorem power_scientificNumeral (lead : Int) :
    (Exponent.mk (if lead < 0 then .minus else if s.exponentPlus then .plus else .bare)
      (digitsOf lead.natAbs)).power = lead := by
  rw [Exponent.power, valueOf_digitsOf]
  by_cases hlead : lead < 0
  · rw [if_pos (if_pos hlead)]
    omega
  · rw [if_neg, Int.natAbs_of_nonneg (by omega)]
    rw [if_neg hlead]
    split <;> exact nofun

/-- Digits that are written with a power of ten have the value that their leading exponent
gives them. -/
theorem value_scientificNumeral (lead : Int) (hdigits : digits ≠ []) :
    (s.scientificNumeral negative digits lead).value =
      valueOf digits * 10 ^ (lead + 1 - digits.length) := by
  have hlength := List.length_pos_of_ne_nil hdigits
  have hgrid : lead - (digits.drop 1).length = lead + 1 - digits.length := by
    rw [List.length_drop]
    omega
  rw [scientificNumeral, Numeral.value, Numeral.grid]
  simp only [List.take_append_drop, power_scientificNumeral, hgrid]

/-- **A double is written with the value of its shortest decimal.** -/
theorem value_numeral {x : Float} (hx : 0 < (Magnitude.ofFloat x).significand) :
    (s.numeral x).value = (shortest s.tie (Magnitude.ofFloat x)).value := by
  have hpos : 0 < (shortest s.tie (Magnitude.ofFloat x)).coefficient :=
    Magnitude.pos_of_roundsTo hx (shortest_roundsTo hx)
  rw [numeral]
  generalize shortest s.tie (Magnitude.ofFloat x) = decimal at hpos
  obtain ⟨zeros, hzeros⟩ := exists_eq_trimZeros_append (digitsOf decimal.coefficient)
  have hlength := congrArg List.length hzeros
  have hcoefficient := congrArg valueOf hzeros
  rw [List.length_append, List.length_replicate] at hlength
  rw [valueOf_digitsOf, valueOf_append, valueOf_replicate_zero, List.length_replicate,
    add_zero] at hcoefficient
  -- the zeros that are dropped go into the power of ten
  have hvalue : (valueOf (trimZeros (digitsOf decimal.coefficient)) : ℚ) *
      10 ^ (((digitsOf decimal.coefficient).length : Int) + decimal.exponent -
        (trimZeros (digitsOf decimal.coefficient)).length) = decimal.value := by
    have hpower : ((digitsOf decimal.coefficient).length : Int) + decimal.exponent -
        (trimZeros (digitsOf decimal.coefficient)).length = zeros + decimal.exponent := by omega
    rw [hpower, zpow_add₀ (by norm_num), zpow_natCast, Decimal.value, ← mul_assoc]
    congr 1
    exact_mod_cast hcoefficient.symm
  rw [if_neg hx.ne']
  simp only
  split
  · rw [value_positionalNumeral, hvalue]
  · rw [value_scientificNumeral _ _ _ _ (trimZeros_digitsOf_ne_nil hpos), sub_add_cancel, hvalue]

end NumeralStyle

end SymbolicRegression
