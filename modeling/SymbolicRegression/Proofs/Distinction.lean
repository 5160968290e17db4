/-
# Doubles told apart by their texts

The decimals that round to one double do not round to another: the intervals of two doubles
that follow each other share an end at most, and then one of the two has an odd significand
and gives the end away.  So the shortest decimal leads back to the double, and with it any
text in which a style writes the double.

* `Magnitude.high_le_low` : the intervals of two magnitudes do not overlap;
* `Magnitude.value_eq_of_roundsTo` : a number rounds to one magnitude only;
* `NumeralStyle.eq_of_numeral_eq` : a numeral is that of one double only;
* `NumeralStyle.eq_of_chars_eq` : **every style tells all doubles apart that are not NaNs**.
-/
import SymbolicRegression.Proofs.NumeralValue
import SymbolicRegression.Proofs.SignedAmount

namespace SymbolicRegression

/-! ## Intervals do not overlap -/

namespace Magnitude

variable {v w : Magnitude}

/-- The interval of a magnitude with another exponent than the least one starts a quarter
below the power of two that the magnitude has reached, at the lowest. -/
theorem le_low (hnormal : 2 ^ 52 ≤ v.significand) (hexponent : -1074 < v.exponent) :
    (2 ^ 54 - 1) * 2 ^ v.exponent ≤ v.low := by
  have hpos : (0 : ℚ) < 2 ^ v.exponent := by positivity
  refine mul_le_mul_of_nonneg_right ?_ hpos.le
  have hquarters : 2 ^ 54 + v.quartersBelow ≤ 4 * v.significand + 1 := by
    unfold quartersBelow
    split
    · omega
    · rename_i hne
      have hgreater : v.significand ≠ 2 ^ 52 := fun heq => hne ⟨heq, hexponent⟩
      omega
  have hcast : (2 ^ 54 : ℚ) + v.quartersBelow ≤ 4 * v.significand + 1 := by
    exact_mod_cast hquarters
  linarith

/-- **Intervals do not overlap.**  Where two of them meet, one significand is odd. -/
theorem high_le_low (hv : Canonical v.significand v.exponent)
    (hw : Canonical w.significand w.exponent) (h : v.value < w.value) :
    v.high ≤ w.low ∧ (v.significand % 2 = 1 ∨ w.significand % 2 = 1 ∨ v.high < w.low) := by
  have hunit : (0 : ℚ) < 2 ^ v.exponent := by positivity
  rcases lt_trichotomy v.exponent w.exponent with hless | hsame | hgreater
  · -- the greater one starts close to a power of two that the smaller one does not reach
    have hge := hv.ge
    have hnormal : 2 ^ 52 ≤ w.significand := hw.normal.resolve_left (by omega)
    have hlow := le_low hnormal (show -1074 < w.exponent by omega)
    have htwice : 2 * (2 : ℚ) ^ v.exponent ≤ 2 ^ w.exponent := by
      calc 2 * (2 : ℚ) ^ v.exponent = 2 ^ (v.exponent + 1) := by
            rw [zpow_add₀ (by norm_num), zpow_one, mul_comm]
        _ ≤ 2 ^ w.exponent := zpow_le_zpow_right₀ (by norm_num) (by omega)
    have hbound : (2 ^ 55 - 2) * (2 : ℚ) ^ v.exponent ≤ w.low := by
      calc (2 ^ 55 - 2) * (2 : ℚ) ^ v.exponent = (2 ^ 54 - 1) * (2 * 2 ^ v.exponent) := by ring
        _ ≤ (2 ^ 54 - 1) * 2 ^ w.exponent := mul_le_mul_of_nonneg_left htwice (by norm_num)
        _ ≤ w.low := hlow
    have hlt := hv.lt
    rcases Nat.lt_or_ge v.significand (2 ^ 53 - 1) with hsmall | hlarge
    · have hcast : (v.significand : ℚ) + 2 ≤ 2 ^ 53 := by
        exact_mod_cast (show v.significand + 2 ≤ 2 ^ 53 by omega)
      have hstrict : v.high < w.low := by
        refine lt_of_lt_of_le ?_ hbound
        exact mul_lt_mul_of_pos_right (by linarith) hunit
      exact ⟨hstrict.le, .inr (.inr hstrict)⟩
    · have hcast : (v.significand : ℚ) + 1 ≤ 2 ^ 53 := by exact_mod_cast hlt
      refine ⟨le_trans ?_ hbound, .inl (by omega)⟩
      exact mul_le_mul_of_nonneg_right (by linarith) hunit.le
  · have hsignificand : v.significand < w.significand := by
      rw [value, value, ← hsame] at h
      exact_mod_cast lt_of_mul_lt_mul_right h hunit.le
    have hquarters : (w.quartersBelow : ℚ) ≤ 2 := by exact_mod_cast w.quartersBelow_le
    rw [high, low, ← hsame]
    rcases Nat.lt_or_ge (v.significand + 1) w.significand with hfar | hnext
    · have hcast : (v.significand : ℚ) + 2 ≤ w.significand := by exact_mod_cast hfar
      have hstrict := mul_lt_mul_of_pos_right (show 4 * (v.significand : ℚ) + 2 <
        4 * w.significand - w.quartersBelow by linarith) hunit
      exact ⟨hstrict.le, .inr (.inr hstrict)⟩
    · have hcast : (v.significand : ℚ) + 1 ≤ w.significand := by exact_mod_cast hsignificand
      refine ⟨mul_le_mul_of_nonneg_right (by linarith) hunit.le, ?_⟩
      omega
  · exact absurd h (hw.lt_of_exponent_lt hv hgreater).not_gt

/-- What rounds to the greater of two magnitudes is greater than what rounds to the other. -/
theorem value_lt_of_roundsTo {c d : Decimal} (hv : Canonical v.significand v.exponent)
    (hw : Canonical w.significand w.exponent) (hc : v.roundsTo c.exponent c.coefficient = true)
    (hd : w.roundsTo d.exponent d.coefficient = true) (h : v.value < w.value) :
    c.value < d.value := by
  obtain ⟨⟨-, hhigh⟩, hinside⟩ := mem_interval_of_roundsTo hc
  obtain ⟨⟨hlow, -⟩, hinside'⟩ := mem_interval_of_roundsTo hd
  obtain ⟨hle, hodd | hodd | hlt⟩ := high_le_low hv hw h
  · have := (hinside hodd).2
    linarith
  · have := (hinside' hodd).1
    linarith
  · linarith

/-- **A number rounds to one magnitude only.** -/
theorem value_eq_of_roundsTo {c d : Decimal} (hv : Canonical v.significand v.exponent)
    (hw : Canonical w.significand w.exponent) (hc : v.roundsTo c.exponent c.coefficient = true)
    (hd : w.roundsTo d.exponent d.coefficient = true) (h : c.value = d.value) :
    v.value = w.value := by
  rcases lt_trichotomy v.value w.value with hlt | heq | hgt
  · exact absurd h (value_lt_of_roundsTo hv hw hc hd hlt).ne
  · exact heq
  · exact absurd h (value_lt_of_roundsTo hw hv hd hc hgt).ne'

end Magnitude

/-! ## Numerals -/

namespace NumeralStyle

variable {s : NumeralStyle} {x y : Float}

/-- The numeral of zero has the value zero. -/
theorem value_numeral_of_eq_zero (hx : (Magnitude.ofFloat x).significand = 0) :
    (s.numeral x).value = 0 := by
  rw [numeral, if_pos hx, Numeral.value, valueOf_append, valueOf_integralFraction]
  simp [valueOf, Digit.zero]

theorem value_numeral_pos (hx : 0 < (Magnitude.ofFloat x).significand) :
    0 < (s.numeral x).value := by
  have hpos : 0 < (shortest s.tie (Magnitude.ofFloat x)).coefficient :=
    Magnitude.pos_of_roundsTo hx (shortest_roundsTo hx)
  rw [value_numeral s hx, Decimal.value]
  positivity

/-- Numerals of the same value are those of the same magnitude. -/
theorem value_eq_of_value_numeral_eq (hx : x.isFinite = true) (hy : y.isFinite = true)
    (h : (s.numeral x).value = (s.numeral y).value) :
    (Magnitude.ofFloat x).value = (Magnitude.ofFloat y).value := by
  obtain ⟨hcx, -⟩ := Magnitude.canonical_of_isFinite hx
  obtain ⟨hcy, -⟩ := Magnitude.canonical_of_isFinite hy
  rcases Nat.eq_zero_or_pos (Magnitude.ofFloat x).significand with hzero | hpos
  · rcases Nat.eq_zero_or_pos (Magnitude.ofFloat y).significand with hzero' | hpos'
    · rw [Magnitude.value, Magnitude.value, hzero, hzero', Nat.cast_zero, zero_mul, zero_mul]
    · rw [value_numeral_of_eq_zero hzero] at h
      exact absurd h (value_numeral_pos hpos').ne
  · rcases Nat.eq_zero_or_pos (Magnitude.ofFloat y).significand with hzero' | hpos'
    · rw [value_numeral_of_eq_zero hzero'] at h
      exact absurd h (value_numeral_pos hpos).ne'
    · rw [value_numeral s hpos, value_numeral s hpos'] at h
      exact Magnitude.value_eq_of_roundsTo hcx hcy (shortest_roundsTo hpos)
        (shortest_roundsTo hpos') h

/-- **A numeral is that of one double only.** -/
theorem eq_of_numeral_eq (hx : x.isFinite = true) (hy : y.isFinite = true)
    (h : s.numeral x = s.numeral y) : x = y := by
  have hsign : signBit x = signBit y := by
    rw [← s.negative_numeral, h, s.negative_numeral]
  have hvalue := value_eq_of_value_numeral_eq hx hy (congrArg Numeral.value h)
  have hamount := signedAmount_of_isFinite hx
  rw [hsign, hvalue] at hamount
  exact hamount.ext (signedAmount_of_isFinite hy)

/-! ## Texts -/

/-- What is neither finite nor a NaN is an infinity. -/
theorem unpack_eq_infinity (hx : x.isFinite = false) (hnan : x.isNaN = false) :
    x.toModel.unpack = .infinity (signOf (signBit x)) := by
  have hfinite : x.toModel.unpack.isFinite = false := hx
  have hnumber : x.toModel.unpack.isNaN = false := hnan
  obtain ⟨b, hbits, hunpack⟩ := exists_bits x
  rw [hunpack] at hfinite hnumber ⊢
  by_cases hexponent : Float.Model.UnpackedFloat.unpackExponent b = -1#11
  · rw [Float.Model.UnpackedFloat.unpack, if_pos hexponent] at hnumber ⊢
    split
    · rw [ofBitVec_unpackSign hbits]
    · rename_i hmantissa
      rw [if_neg hmantissa] at hnumber
      cases hnumber
  · rw [unpack_eq_of_ne hexponent] at hfinite
    split at hfinite <;> cases hfinite

theorem chars_of_isFinite (hx : x.isFinite = true) : s.chars x = (s.numeral x).chars := by
  rw [chars, numeral?, if_pos hx]

theorem chars_of_infinite (hx : x.isFinite = false) (hnan : x.isNaN = false) :
    s.chars x = if signBit x then ['-', 'i', 'n', 'f'] else ['i', 'n', 'f'] := by
  rw [chars, numeral?, hx, if_neg Bool.false_ne_true, hnan]
  rfl

/-- A word for an infinity is not a numeral. -/
theorem chars_ne_of_infinite (hx : x.isFinite = true) (hy : y.isFinite = false)
    (hnan : y.isNaN = false) : s.chars x ≠ s.chars y := by
  intro h
  have hread := Numeral.ofChars?_chars (s.wellFormed_numeral x)
  rw [← chars_of_isFinite hx, h, chars_of_infinite hy hnan] at hread
  generalize signBit y = negative at hread
  cases negative <;> cases hread

/-- **Every style tells all doubles apart that are not NaNs**, zeros of either sign included. -/
theorem eq_of_chars_eq (hx : x.isNaN = false) (hy : y.isNaN = false) (h : s.chars x = s.chars y) :
    x = y := by
  cases hfx : x.isFinite with
  | true =>
    cases hfy : y.isFinite with
    | true =>
      rw [chars_of_isFinite hfx, chars_of_isFinite hfy] at h
      have hread := Numeral.ofChars?_chars (s.wellFormed_numeral x)
      rw [h, Numeral.ofChars?_chars (s.wellFormed_numeral y)] at hread
      exact eq_of_numeral_eq hfx hfy (Option.some.inj hread).symm
    | false => exact absurd h (chars_ne_of_infinite hfx hfy hy)
  | false =>
    cases hfy : y.isFinite with
    | true => exact absurd h.symm (chars_ne_of_infinite hfy hfx hx)
    | false =>
      have hsign : signBit x = signBit y := by
        rw [chars_of_infinite hfx hx, chars_of_infinite hfy hy] at h
        generalize signBit x = negative at h ⊢
        generalize signBit y = negative' at h ⊢
        revert h
        cases negative <;> cases negative' <;> decide
      apply float_ext
      rw [unpack_eq_infinity hfx hx, unpack_eq_infinity hfy hy, hsign]

end NumeralStyle

end SymbolicRegression
