/-
# Rounding

The arithmetic of doubles works out a number exactly, as a mantissa and a word on what
is left of it, and then rounds it to 53 bits.  Of the outcome only what bounds it is
shown here: how far it can be from the number, and that it does not go beyond a double
that the number does not reach.

* `Denotes` : the numbers that a mantissa and its accuracy stand for;
* `IsRounding` : one number is what another is rounded to;
* `hasAmount_roundWithAccuracy` : **rounding makes of a number what it is rounded to.**
-/
import Mathlib

namespace SymbolicRegression

open Float.Model Float.Model.UnpackedFloat

/-! ## What is left of a number -/

/-- The numbers that a natural number and an accuracy stand for. -/
def Denotes (mantissa : Nat) (x : ℚ) : Accuracy → Prop
  | .exact => x = mantissa
  | .inexact .lt => mantissa < x ∧ x < mantissa + 1 / 2
  | .inexact .eq => x = mantissa + 1 / 2
  | .inexact .gt => mantissa + 1 / 2 < x ∧ x < mantissa + 1

namespace Denotes

variable {mantissa : Nat} {x : ℚ} {accuracy : Accuracy} {em : ExtendedMantissa}

theorem bounds (h : Denotes mantissa x accuracy) : mantissa ≤ x ∧ x < mantissa + 1 := by
  rcases accuracy with _ | _ | _ | _ <;> simp only [Denotes] at h <;> constructor <;> linarith

/-- Rounding goes to a next natural number. -/
theorem abs_sub_le (h : Denotes mantissa x accuracy) :
    |(accuracy.roundToNearestEven mantissa : ℚ) - x| ≤ 1 / 2 := by
  rw [abs_le]
  rcases accuracy with _ | _ | _ | _ <;> simp only [Denotes] at h <;>
    simp only [Accuracy.roundToNearestEven]
  · constructor <;> linarith
  · constructor <;> linarith
  · have hmod : ((mantissa % 2 : Nat) : ℚ) ≤ 1 := by exact_mod_cast (by omega : mantissa % 2 ≤ 1)
    have hnonneg : (0 : ℚ) ≤ ((mantissa % 2 : Nat) : ℚ) := Nat.cast_nonneg _
    rw [Nat.cast_add]
    constructor <;> linarith
  · rw [Nat.cast_succ]
    constructor <;> linarith

/-- Dropping a bit of the mantissa divides by two, and the residual bits keep account of it. -/
theorem shiftRightOne (h : Denotes em.mantissa x em.accuracy) :
    Denotes em.shiftRightOne.mantissa (x / 2) em.shiftRightOne.accuracy := by
  obtain ⟨m, r, s⟩ := em
  have hm : ((m % 2 : Nat) : ℚ) + 2 * ((m / 2 : Nat) : ℚ) = m := by
    exact_mod_cast Nat.mod_add_div m 2
  -- which number is meant turns on the dropped bit and on the two residual bits
  rcases Nat.mod_two_eq_zero_or_one m with hr | hr <;> rw [hr] at hm <;> push_cast at hm <;>
    cases r <;> cases s <;>
    simp only [ExtendedMantissa.accuracy, ExtendedMantissa.shiftRightOne, hr, Denotes] at h ⊢ <;>
    simp <;> first | linarith | (constructor <;> linarith)

theorem shiftRight (h : Denotes em.mantissa x em.accuracy) (n : Nat) :
    Denotes (em >>> n).mantissa (x / 2 ^ n) (em >>> n).accuracy := by
  show Denotes (n.repeat ExtendedMantissa.shiftRightOne em).mantissa _
    (n.repeat ExtendedMantissa.shiftRightOne em).accuracy
  induction n with
  | zero =>
    rw [pow_zero, div_one]
    exact h
  | succ n ih =>
    have hnext := ih.shiftRightOne
    rwa [div_div, ← pow_succ] at hnext

theorem ofMantissaAndAccuracy (h : Denotes mantissa x accuracy) :
    Denotes (ExtendedMantissa.ofMantissaAndAccuracy mantissa accuracy).mantissa x
      (ExtendedMantissa.ofMantissaAndAccuracy mantissa accuracy).accuracy := by
  rcases accuracy with _ | _ | _ | _ <;> exact h

end Denotes

/-! ## Rounding to a double -/

/-- Natural numbers have no room between them. -/
theorem le_of_natCast_lt {a b : ℕ} (h : (a : ℚ) < b + 1) : a ≤ b :=
  Nat.lt_succ_iff.1 (by exact_mod_cast h)

/-- A power of two as a number of units. -/
theorem div_lt_two_pow_iff {x : ℚ} {t : ℤ} {n : ℕ} : x / 2 ^ t < 2 ^ n ↔ x < 2 ^ (t + n) := by
  rw [div_lt_iff₀ (by positivity), ← zpow_natCast, ← zpow_add₀ (by norm_num), add_comm]

theorem two_pow_le_div_iff {x : ℚ} {t : ℤ} {n : ℕ} : 2 ^ n ≤ x / 2 ^ t ↔ 2 ^ (t + n) ≤ x := by
  rw [le_div_iff₀ (by positivity), ← zpow_natCast, ← zpow_add₀ (by norm_num), add_comm]

/-- What a number is rounded to: a whole number of units that is next to it, where the
unit leaves it 53 bits, unless it is the least one and leaves it fewer. -/
def IsRounding (x y : ℚ) : Prop :=
  ∃ (count : ℕ) (e : ℤ), y = count * 2 ^ e ∧ |(count : ℚ) - x / 2 ^ e| ≤ 1 / 2 ∧ -1074 ≤ e ∧
    x < 2 ^ (e + 53) ∧ (e = -1074 ∨ 2 ^ (e + 52) ≤ x)

/-- The mantissas and exponents that doubles are told by. -/
structure Canonical (m : Nat) (e : Int) : Prop where
  lt : m < 2 ^ 53
  ge : -1074 ≤ e
  normal : e = -1074 ∨ 2 ^ 52 ≤ m

/-- A mantissa has at most 53 bits. -/
theorem Canonical.lt_two_pow {m : Nat} {e : Int} (hc : Canonical m e) :
    (m : ℚ) * 2 ^ e < 2 ^ (e + 53) := by
  have hm : (m : ℚ) < 2 ^ (53 : ℤ) := by exact_mod_cast hc.lt
  calc (m : ℚ) * 2 ^ e < 2 ^ (53 : ℤ) * 2 ^ e := mul_lt_mul_of_pos_right hm (by positivity)
    _ = 2 ^ (e + 53) := by rw [← zpow_add₀ (by norm_num), add_comm]

theorem two_pow_le_of_normal {m : Nat} (hm : 2 ^ 52 ≤ m) (e : Int) :
    (2 : ℚ) ^ (e + 52) ≤ m * 2 ^ e := by
  have hm' : (2 : ℚ) ^ (52 : ℤ) ≤ m := by exact_mod_cast hm
  calc (2 : ℚ) ^ (e + 52) = 2 ^ (52 : ℤ) * 2 ^ e := by rw [← zpow_add₀ (by norm_num), add_comm]
    _ ≤ m * 2 ^ e := mul_le_mul_of_nonneg_right hm' (by positivity)

/-- The value of what is finite and not negative. -/
inductive HasAmount : UnpackedFloat → ℚ → Prop
  | zero : HasAmount (.zero .positive) 0
  | finite {m : Nat} {e : Int} (hm : 0 < m) (hc : Canonical m e) :
      HasAmount (.finite .positive m e hm) (m * 2 ^ e)

theorem targetExponent_eq (m : Nat) (e : Int) :
    Format.binary64.targetExponent (totalExponent m e) = max (m.log2 + e - 52) (-1074) := by
  simp only [Format.targetExponent, totalExponent, Format.mantissaBits, Format.minExponent]
  norm_num
  omega

/-- A mantissa of 53 bits is not shifted again. -/
theorem shiftToTargetExponent_of_lt {m : Nat} {e : Int} (hm : m < 2 ^ 53) (he : -1074 ≤ e) :
    shiftToTargetExponent .binary64 m e .exact = (⟨m, false, false⟩, e) := by
  have hlog : m.log2 ≤ 52 := by
    rcases Nat.eq_zero_or_pos m with rfl | hpos
    · decide
    · exact Nat.le_of_lt_succ ((Nat.log2_lt hpos.ne').2 hm)
  have hstay : (max ((m.log2 : Int) + e - 52) (-1074) - e).toNat = 0 := by omega
  rw [shiftToTargetExponent, targetExponent_eq]
  simp only [shiftToExponent, hstay]
  simp [ExtendedMantissa.ofMantissaAndAccuracy, HShiftRight.hShiftRight, Nat.repeat]

/-- The one mantissa of 54 bits that rounding may make loses its last bit, a zero. -/
theorem shiftToTargetExponent_carry {e : Int} (he : -1074 ≤ e) :
    shiftToTargetExponent .binary64 (2 ^ 53) e .exact = (⟨2 ^ 52, false, false⟩, e + 1) := by
  have hone : (max (((2 ^ 53 : Nat).log2 : Int) + e - 52) (-1074) - e).toNat = 1 := by
    rw [Nat.log2_two_pow]
    omega
  rw [shiftToTargetExponent, targetExponent_eq]
  simp only [shiftToExponent, hone]
  rfl

theorem roundWithAccuracy_eq {m m' count : Nat} {e t t' : Int} {a : Accuracy}
    {em : ExtendedMantissa} (hfirst : shiftToTargetExponent .binary64 m e a = (em, t))
    (hcount : em.roundedMantissa = count)
    (hsecond : shiftToTargetExponent .binary64 count t .exact = (⟨m', false, false⟩, t')) :
    roundWithAccuracy .binary64 .positive m e a =
      if h : m' = 0 then .zero .positive else .finite .positive m' t' (Nat.pos_of_ne_zero h) := by
  simp only [roundWithAccuracy, hfirst, hcount, hsecond]

/-- What becomes of the rounded mantissa. -/
theorem hasAmount_of_shift {m count : Nat} {e t : Int} {a : Accuracy} {em : ExtendedMantissa}
    (hfirst : shiftToTargetExponent .binary64 m e a = (em, t)) (hcount : em.roundedMantissa = count)
    (hmax : count ≤ 2 ^ 53) (hleast : -1074 ≤ t) (hmin : t = -1074 ∨ 2 ^ 52 ≤ count) :
    HasAmount (roundWithAccuracy .binary64 .positive m e a) (count * 2 ^ t) := by
  rcases Nat.lt_or_ge count (2 ^ 53) with hsmall | hlarge
  · rw [roundWithAccuracy_eq hfirst hcount (shiftToTargetExponent_of_lt hsmall hleast)]
    by_cases hzero : count = 0
    · rw [dif_pos hzero, hzero, Nat.cast_zero, zero_mul]
      exact .zero
    · rw [dif_neg hzero]
      exact .finite _ ⟨hsmall, hleast, hmin⟩
  · obtain rfl : count = 2 ^ 53 := by omega
    have hcarry : (((2 : Nat) ^ 53 : Nat) : ℚ) * 2 ^ t = ((2 ^ 52 : Nat) : ℚ) * 2 ^ (t + 1) := by
      rw [zpow_add₀ (by norm_num)]
      push_cast
      ring
    rw [roundWithAccuracy_eq hfirst hcount (shiftToTargetExponent_carry hleast), hcarry,
      dif_neg (by decide)]
    exact .finite _ ⟨by decide, by omega, .inr (Nat.le_refl _)⟩

/-- The unit that is taken leaves 53 bits, unless it is the least one. -/
theorem unit_bounds {m : Nat} {e t : Int} {a : Accuracy} {x : ℚ} (hx : Denotes m (x / 2 ^ e) a)
    (hbits : e ≤ -1074 ∨ 52 ≤ m.log2) (ht : t = max ((m.log2 : Int) + e - 52) (-1074)) :
    x < 2 ^ (t + 53) ∧ (t = -1074 ∨ 2 ^ (t + 52) ≤ x) := by
  have hpos : (0 : ℚ) < 2 ^ e := by positivity
  obtain ⟨hlow, hhigh⟩ := hx.bounds
  rw [le_div_iff₀ hpos] at hlow
  rw [div_lt_iff₀ hpos] at hhigh
  constructor
  · have hm : (m : ℚ) + 1 ≤ 2 ^ ((m.log2 : Int) + 1) := by
      have hlog : m + 1 ≤ 2 ^ (m.log2 + 1) := Nat.lt_log2_self
      exact_mod_cast hlog
    calc x < (m + 1) * 2 ^ e := hhigh
      _ ≤ 2 ^ ((m.log2 : Int) + 1) * 2 ^ e := mul_le_mul_of_nonneg_right hm hpos.le
      _ = 2 ^ ((m.log2 : Int) + 1 + e) := (zpow_add₀ (by norm_num) _ _).symm
      _ ≤ 2 ^ (t + 53) := zpow_le_zpow_right₀ (by norm_num) (by omega)
  · by_cases hleast : t = -1074
    · exact .inl hleast
    · have hnonzero : m ≠ 0 := by
        rintro rfl
        rw [Nat.log2_zero] at hbits ht
        omega
      have hm : (2 : ℚ) ^ (m.log2 : Int) ≤ m := by
        exact_mod_cast Nat.log2_self_le hnonzero
      refine .inr ?_
      calc (2 : ℚ) ^ (t + 52) = 2 ^ ((m.log2 : Int) + e) := by congr 1; omega
        _ = 2 ^ (m.log2 : Int) * 2 ^ e := zpow_add₀ (by norm_num) _ _
        _ ≤ m * 2 ^ e := mul_le_mul_of_nonneg_right hm hpos.le
        _ ≤ x := hlow

/-- **The rounding of doubles** makes of a number what it is rounded to. -/
theorem hasAmount_roundWithAccuracy {m : Nat} {e : Int} {a : Accuracy} {x : ℚ}
    (hx : Denotes m (x / 2 ^ e) a) (hbits : e ≤ -1074 ∨ 52 ≤ m.log2) :
    ∃ y, IsRounding x y ∧ HasAmount (roundWithAccuracy .binary64 .positive m e a) y := by
  obtain ⟨t, ht⟩ : ∃ t, t = max ((m.log2 : Int) + e - 52) (-1074) := ⟨_, rfl⟩
  have hleast : -1074 ≤ t := by omega
  obtain ⟨em, hem⟩ : ∃ em, em = ExtendedMantissa.ofMantissaAndAccuracy m a >>> (t - e).toNat :=
    ⟨_, rfl⟩
  have hfirst : shiftToTargetExponent .binary64 m e a = (em, t) := by
    rw [shiftToTargetExponent, targetExponent_eq, ← ht, shiftToExponent, hem]
    exact Prod.ext rfl (show e + ((t - e).toNat : Int) = t by omega)
  have hdenotes : Denotes em.mantissa (x / 2 ^ t) em.accuracy := by
    have hpow : (2 : ℚ) ^ e * 2 ^ (t - e).toNat = 2 ^ t := by
      rw [← zpow_natCast, ← zpow_add₀ (by norm_num)]
      congr 1
      omega
    have h := hx.ofMantissaAndAccuracy.shiftRight (t - e).toNat
    rwa [div_div, hpow, ← hem] at h
  obtain ⟨count, hcount⟩ : ∃ count, em.roundedMantissa = count := ⟨_, rfl⟩
  have hround : |(count : ℚ) - x / 2 ^ t| ≤ 1 / 2 := hcount ▸ hdenotes.abs_sub_le
  obtain ⟨hupper, hlower⟩ := unit_bounds hx hbits ht
  obtain ⟨hlow, hhigh⟩ := abs_le.1 hround
  have hmax : count ≤ 2 ^ 53 := by
    have hq : x / 2 ^ t < 2 ^ 53 := div_lt_two_pow_iff.2 hupper
    refine le_of_natCast_lt ?_
    push_cast
    linarith
  -- rounding down loses no bit either, since a number of 53 bits is at least its first one
  have hmin : t = -1074 ∨ 2 ^ 52 ≤ count := by
    refine hlower.imp_right fun hx => ?_
    have hq : (2 : ℚ) ^ 52 ≤ x / 2 ^ t := two_pow_le_div_iff.2 hx
    refine le_of_natCast_lt ?_
    push_cast
    linarith
  exact ⟨count * 2 ^ t, ⟨count, t, rfl, hround, hleast, hupper, hlower⟩,
    hasAmount_of_shift hfirst hcount hmax hleast hmin⟩

namespace IsRounding

variable {x y : ℚ}

/-- Rounding does not go beyond a double that is next to what is not reached. -/
theorem le_of_lt (h : IsRounding x y) {m : Nat} {e : Int} (hm : 2 ^ 52 ≤ m) (hm' : m < 2 ^ 53)
    (he : -1074 ≤ e) (hx : x < (m + 1 / 2) * 2 ^ e) : y ≤ m * 2 ^ e := by
  obtain ⟨count, t, rfl, hround, hleast, hupper, hlower⟩ := h
  obtain ⟨-, hhigh⟩ := abs_le.1 hround
  have hpos : (0 : ℚ) < 2 ^ t := by positivity
  have hposE : (0 : ℚ) < 2 ^ e := by positivity
  have hlt : t < e + 1 := by
    rcases hlower with rfl | hlower
    · omega
    · have hm'' : (m : ℚ) + 1 / 2 ≤ 2 ^ (53 : ℤ) := by
        have hcast : (m : ℚ) + 1 ≤ 2 ^ 53 := by exact_mod_cast hm'
        norm_num at hcast ⊢
        linarith
      have hpow : (2 : ℚ) ^ (t + 52) < 2 ^ (53 + e) := by
        calc (2 : ℚ) ^ (t + 52) ≤ x := hlower
          _ < (m + 1 / 2) * 2 ^ e := hx
          _ ≤ 2 ^ (53 : ℤ) * 2 ^ e := mul_le_mul_of_nonneg_right hm'' hposE.le
          _ = 2 ^ (53 + e) := (zpow_add₀ (by norm_num) _ _).symm
      have hexp := (zpow_lt_zpow_iff_right₀ (by norm_num : (1 : ℚ) < 2)).1 hpow
      omega
  rcases (show t ≤ e by omega).lt_or_eq with hless | rfl
  · -- a finer unit: the result has at most 53 bits
    have hq : x / 2 ^ t < 2 ^ 53 := div_lt_two_pow_iff.2 hupper
    have hcount : count ≤ 2 ^ 53 := by
      refine le_of_natCast_lt ?_
      push_cast
      linarith
    calc (count : ℚ) * 2 ^ t ≤ 2 ^ (53 : ℤ) * 2 ^ t := by
          refine mul_le_mul_of_nonneg_right ?_ hpos.le
          exact_mod_cast hcount
      _ = 2 ^ (53 + t) := (zpow_add₀ (by norm_num) _ _).symm
      _ ≤ 2 ^ (e + 52) := zpow_le_zpow_right₀ (by norm_num) (by omega)
      _ ≤ m * 2 ^ e := two_pow_le_of_normal hm e
  · have hq : x / 2 ^ t < m + 1 / 2 := by rwa [div_lt_iff₀ hpos]
    have hcount : count ≤ m := le_of_natCast_lt (by linarith)
    refine mul_le_mul_of_nonneg_right ?_ hpos.le
    exact_mod_cast hcount

/-- Rounding changes a number by at most half a unit. -/
theorem abs_sub_le_half_unit {count : ℕ} {t : ℤ} (hround : |(count : ℚ) - x / 2 ^ t| ≤ 1 / 2) :
    |(count : ℚ) * 2 ^ t - x| ≤ 2 ^ (t - 1) := by
  have hpos : (0 : ℚ) < 2 ^ t := by positivity
  have hdist : |(count : ℚ) * 2 ^ t - x| = |(count : ℚ) - x / 2 ^ t| * 2 ^ t := by
    rw [← abs_of_pos hpos, ← abs_mul, abs_of_pos hpos, sub_mul, div_mul_cancel₀ _ hpos.ne']
  calc |(count : ℚ) * 2 ^ t - x| = |(count : ℚ) - x / 2 ^ t| * 2 ^ t := hdist
    _ ≤ 1 / 2 * 2 ^ t := mul_le_mul_of_nonneg_right hround hpos.le
    _ = 2 ^ (t - 1) := by
      rw [zpow_sub_one₀ (by norm_num), mul_comm, one_div]

/-- Above the least unit this is half a unit of the last of 53 bits. -/
theorem abs_sub_le_of_unit {count : ℕ} {t : ℤ} (hround : |(count : ℚ) - x / 2 ^ t| ≤ 1 / 2)
    (ht : 2 ^ (t + 52) ≤ x) : |(count : ℚ) * 2 ^ t - x| ≤ x / 2 ^ 53 := by
  have hexponent : t - 1 = t + 52 - (53 : ℕ) := by
    push_cast
    ring
  calc |(count : ℚ) * 2 ^ t - x| ≤ 2 ^ (t - 1) := abs_sub_le_half_unit hround
    _ = 2 ^ (t + 52) / 2 ^ 53 := by
      rw [hexponent, zpow_sub₀ (by norm_num), zpow_natCast]
    _ ≤ x / 2 ^ 53 := div_le_div_of_nonneg_right ht (by positivity)

/-- From one on, rounding changes a number by at most half a unit of its last place. -/
theorem abs_sub_le (h : IsRounding x y) (hx : 1 ≤ x) : |y - x| ≤ x / 2 ^ 53 := by
  obtain ⟨count, t, rfl, hround, -, hupper, hlower⟩ := h
  refine abs_sub_le_of_unit hround (hlower.resolve_left ?_)
  rintro rfl
  have hle : (2 : ℚ) ^ ((-1074 : ℤ) + 53) ≤ 1 :=
    zpow_le_one_of_nonpos₀ (by norm_num) (by norm_num)
  linarith

/-- Where the least unit is taken, half of that is the limit. -/
theorem abs_sub_le_add (h : IsRounding x y) (hx : 0 ≤ x) :
    |y - x| ≤ x / 2 ^ 53 + 2 ^ (-1075 : ℤ) := by
  obtain ⟨count, t, rfl, hround, -, -, hlower⟩ := h
  rcases hlower with rfl | hlower
  · exact (abs_sub_le_half_unit hround).trans (le_add_of_nonneg_left (by positivity))
  · exact (abs_sub_le_of_unit hround hlower).trans (le_add_of_nonneg_right (by positivity))

/-- A whole number of units is rounded to itself. -/
theorem count_eq {count k : ℕ} {t : ℤ} (hx : x = k * 2 ^ t)
    (hround : |(count : ℚ) - x / 2 ^ t| ≤ 1 / 2) : count = k := by
  have hpos : (0 : ℚ) < 2 ^ t := by positivity
  rw [hx, mul_div_cancel_right₀ _ hpos.ne', abs_le] at hround
  exact Nat.le_antisymm (le_of_natCast_lt (by linarith)) (le_of_natCast_lt (by linarith))

/-- A whole number of least units is changed by at most half a unit of its last place. -/
theorem abs_sub_le_of_units (h : IsRounding x y) {k : ℕ} (hx : x = k * 2 ^ (-1074 : ℤ)) :
    |y - x| ≤ x / 2 ^ 53 := by
  obtain ⟨count, t, rfl, hround, -, -, hlower⟩ := h
  rcases hlower with rfl | hlower
  · rw [count_eq hx hround, ← hx, sub_self, abs_zero, hx]
    positivity
  · exact abs_sub_le_of_unit hround hlower

theorem zero : IsRounding 0 0 :=
  ⟨0, -1074, by norm_num, by norm_num, le_refl _, by positivity, .inl rfl⟩

/-- **A double is rounded to itself.** -/
theorem of_hasAmount {u : UnpackedFloat} (h : HasAmount u x) : IsRounding x x := by
  cases h with
  | zero => exact zero
  | @finite m e hm hc =>
    refine ⟨m, e, rfl, ?_, hc.ge, hc.lt_two_pow, ?_⟩
    · rw [mul_div_cancel_right₀ _ (by positivity), sub_self, abs_zero]
      norm_num
    · exact hc.normal.imp_right fun hm => two_pow_le_of_normal hm e

/-- **A double is rounded to nothing else.** -/
theorem eq_of_hasAmount (h : IsRounding x y) {u : UnpackedFloat} (hx : HasAmount u x) : y = x := by
  obtain ⟨count, t, rfl, hround, hleast, hupper, hlower⟩ := h
  cases hx with
  | zero => rw [count_eq (k := 0) (by norm_num) hround, Nat.cast_zero, zero_mul]
  | @finite m e hm hc =>
    have hexponent {a b : ℤ} (hlt : (2 : ℚ) ^ a < 2 ^ b) : a < b :=
      (zpow_lt_zpow_iff_right₀ (by norm_num)).1 hlt
    have hge := hc.ge
    -- the unit that leaves 53 bits is the one that the double is told by
    have hle : t ≤ e := by
      rcases hlower with rfl | hlower
      · exact hge
      · have hlt := hexponent (hlower.trans_lt hc.lt_two_pow)
        omega
    have ht : t = e := by
      rcases hc.normal with rfl | hm'
      · omega
      · have hlt := hexponent ((two_pow_le_of_normal hm' e).trans_lt hupper)
        omega
    subst ht
    rw [count_eq rfl hround]

/-- A natural number of 53 bits is a double, so it is rounded to itself; and so is the next one. -/
theorem eq_natCast {n : Nat} (h : IsRounding n y) (hn : n ≤ 2 ^ 53) : y = n := by
  rcases hn.lt_or_eq with hlt | rfl
  · obtain ⟨count, t, rfl, hround, -, -, hlower⟩ := h
    have ht : t ≤ 0 := by
      rcases hlower with rfl | hlower
      · omega
      · have hpow : (2 : ℚ) ^ (t + 52) < 2 ^ (53 : ℤ) := by
          refine hlower.trans_lt ?_
          exact_mod_cast hlt
        have hexp := (zpow_lt_zpow_iff_right₀ (by norm_num : (1 : ℚ) < 2)).1 hpow
        omega
    obtain ⟨k, rfl⟩ : ∃ k : ℕ, t = -k := ⟨t.natAbs, by omega⟩
    have hunits : (n : ℚ) = ((n * 2 ^ k : ℕ) : ℚ) * 2 ^ (-(k : ℤ)) := by
      rw [Nat.cast_mul, Nat.cast_pow, Nat.cast_ofNat, zpow_neg, zpow_natCast,
        mul_inv_cancel_right₀ (by positivity)]
    rw [count_eq hunits hround, ← hunits]
  · have hvalue : ((2 ^ 53 : ℕ) : ℚ) = ((2 ^ 52 : ℕ) : ℚ) * 2 ^ (1 : ℤ) := by norm_num
    rw [hvalue] at h ⊢
    exact h.eq_of_hasAmount (.finite (by decide) ⟨by decide, by decide, .inr (Nat.le_refl _)⟩)

/-- What is below one, or just above it, is rounded to one at most. -/
theorem le_one (h : IsRounding x y) (hx : x < 1 + 1 / 2 ^ 53) : y ≤ 1 := by
  have hle := h.le_of_lt (m := 2 ^ 52) (e := -52) (Nat.le_refl _) (by decide) (by decide)
    (hx.trans_eq (by norm_num))
  norm_num at hle
  exact hle

/-- What is not below one is not rounded below one. -/
theorem one_le (h : IsRounding x y) (hx : 1 ≤ x) : 1 ≤ y := by
  obtain ⟨count, t, rfl, hround, -, -, hlower⟩ := h
  obtain ⟨hlow, -⟩ := abs_le.1 hround
  rcases le_or_gt t 0 with ht | ht
  · -- one is a whole number of units
    obtain ⟨k, rfl⟩ : ∃ k : ℕ, t = -k := ⟨t.natAbs, by omega⟩
    have hunits : ((2 ^ k : ℕ) : ℚ) ≤ x / 2 ^ (-(k : ℤ)) := by
      rw [zpow_neg, zpow_natCast, div_inv_eq_mul, Nat.cast_pow, Nat.cast_ofNat]
      exact le_mul_of_one_le_left (by positivity) hx
    have hcount : 2 ^ k ≤ count := le_of_natCast_lt (by linarith)
    have hcast : (2 : ℚ) ^ k ≤ count := by exact_mod_cast hcount
    rw [zpow_neg, zpow_natCast, ← div_eq_mul_inv]
    exact (one_le_div (by positivity)).2 hcast
  · -- the unit is more than one, and there is one at least
    have hunits : (2 : ℚ) ^ 52 ≤ x / 2 ^ t := two_pow_le_div_iff.2 (hlower.resolve_left (by omega))
    have hcount : 1 ≤ count := by
      refine le_of_natCast_lt ?_
      push_cast
      linarith
    have hcast : (1 : ℚ) ≤ count := by exact_mod_cast hcount
    exact one_le_mul_of_one_le_of_one_le hcast (one_le_zpow₀ (by norm_num) ht.le)

theorem div_le_one {p t : ℚ} (h : IsRounding (p / t) y) (ht : 0 < t) (hp : p ≤ t) :
    y ≤ 1 :=
  h.le_one (lt_of_le_of_lt (div_le_one_of_le₀ hp ht.le) (by norm_num))

end IsRounding

end SymbolicRegression
