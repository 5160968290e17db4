/-
# Chances

Which answers a question of yes or no can have, told by its probability.  One and zero
decide it.  In between both answers can be had, as long as one word in all is enough for
a yes.

* `leastChance` : the least probability that makes a yes possible;
* `OpenChance` : the probabilities below one that make it possible;
* `OpenChance.chanceAllows` : **an open chance allows both answers**;
* `not_chanceAllows_false`, `not_chanceAllows_true` : one allows no no, and zero no yes.
-/
import SymbolicRegression.Proofs.Arithmetic
import SymbolicRegression.Random.Answer

namespace SymbolicRegression

open Float.Model Float.Model.UnpackedFloat

variable {p : Float}

/-! ## Certain answers -/

/-- To a question of probability one the answer is yes. -/
theorem not_chanceAllows_false (h : (p == 1.0) = true) : ¬ ChanceAllows p false := by
  rw [ChanceAllows, if_pos h]
  exact Bool.false_ne_true

/-- Plus and minus zero are what is equal to zero. -/
theorem exists_unpack_eq_zero (h : (p == 0.0) = true) : ∃ s, p.toModel.unpack = .zero s := by
  have hbeq : UnpackedFloat.beq p.toModel.unpack (0.0 : Float).toModel.unpack = true := h
  rw [unpack_zero] at hbeq
  generalize p.toModel.unpack = u at hbeq
  match u with
  | .zero s => exact ⟨s, rfl⟩
  | .finite .positive _ _ _ | .finite .negative _ _ _ => cases hbeq
  | .infinity .positive | .infinity .negative => cases hbeq
  | .notANumber => cases hbeq

/-- To a question of probability zero the answer is no: no word lies below the threshold. -/
theorem not_chanceAllows_true (h : (p == 0.0) = true) : ¬ ChanceAllows p true := by
  obtain ⟨s, hs⟩ := exists_unpack_eq_zero h
  have hone : (p == 1.0) = false := by
    show UnpackedFloat.beq p.toModel.unpack (1.0 : Float).toModel.unpack = false
    rw [hs]
    rfl
  have hthreshold : chanceThreshold p = 0 := by
    show (UnpackedFloat.toUInt64 (UnpackedFloat.unpack .binary64 (UnpackedFloat.pack .binary64
      (UnpackedFloat.mul .binary64 p.toModel.unpack
        (18446744073709551616.0 : Float).toModel.unpack)))).toNat = 0
    rw [hs]
    cases s <;> rfl
  rw [ChanceAllows, hone, hthreshold]
  simp

/-! ## Open chances -/

/-- The probability of one word among all. -/
def leastChance : Float := 1.0 / 18446744073709551616.0

/-- A probability below one for which a word can still answer yes. -/
structure OpenChance (p : Float) : Prop where
  least_le : leastChance ≤ p
  lt_one : p < 1.0

theorem amount_leastChance : Amount leastChance (1 / 2 ^ 64) := by
  have h : Amount leastChance (((2 ^ 52 : ℕ) : ℚ) * 2 ^ (-116 : ℤ)) :=
    .finite (by decide) ⟨by decide, by decide, .inr (Nat.le_refl _)⟩
  norm_num at h ⊢
  exact h

theorem amount_words : Amount 18446744073709551616.0 (2 ^ 64) := by
  have h : Amount 18446744073709551616.0 (((2 ^ 52 : ℕ) : ℚ) * 2 ^ (12 : ℤ)) :=
    .finite (by decide) ⟨by decide, by decide, .inr (Nat.le_refl _)⟩
  norm_num at h ⊢
  exact h

namespace OpenChance

/-- What an open chance is worth. -/
theorem exists_amount (h : OpenChance p) : ∃ q, Amount p q ∧ 1 / 2 ^ 64 ≤ q ∧ q < 1 := by
  have hfinite :=
    isFinite_of_le_of_le amount_leastChance amount_one h.least_le (le_of_lt_float h.lt_one)
  have hsign := signBit_eq_false_of_le amount_leastChance (by positivity) h.least_le hfinite
  have hamount := amount_of_isFinite hfinite hsign
  exact ⟨_, hamount, (amount_le_iff amount_leastChance hamount).1 h.least_le,
    (amount_lt_iff hamount amount_one).1 h.lt_one⟩

/-- An open chance is not certain. -/
theorem beq_one (h : OpenChance p) : (p == 1.0) = false := by
  obtain ⟨q, hq, -, hlt⟩ := h.exists_amount
  rw [Bool.eq_false_iff, ne_eq, amount_beq_iff hq amount_one]
  exact hlt.ne

/-- Some word answers yes. -/
theorem chanceThreshold_pos (h : OpenChance p) : 0 < chanceThreshold p := by
  obtain ⟨q, hq, hle, hlt⟩ := h.exists_amount
  have hone : (1 : ℚ) ≤ 2 ^ 64 * q := by
    rw [div_le_iff₀ (by positivity), mul_comm] at hle
    exact hle
  have hbound : (2 : ℚ) ^ 64 * q < roundingBound := by
    refine lt_trans ?_ two_pow_lt_roundingBound
    calc (2 : ℚ) ^ 64 * q < 2 ^ 64 * 1 := mul_lt_mul_of_pos_left hlt (by positivity)
      _ = 2 ^ (64 : ℤ) := by norm_num
      _ ≤ 2 ^ (1023 : ℤ) := zpow_le_zpow_right₀ (by norm_num) (by norm_num)
  obtain ⟨z, hz, hround⟩ := amount_mul amount_words hq (.inr (by norm_num)) hbound
  rw [chanceThreshold, float_mul_comm]
  exact toUInt64_pos hz (hround.one_le hone)

/-- **An open chance allows both answers.** -/
theorem chanceAllows (h : OpenChance p) (answer : Bool) : ChanceAllows p answer := by
  rw [ChanceAllows, h.beq_one]
  intro _
  exact h.chanceThreshold_pos

end OpenChance

end SymbolicRegression
