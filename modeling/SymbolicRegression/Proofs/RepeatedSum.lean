/-
# The mean of equal values

The mean of `n` copies of a double is worked out by `n - 1` sums and one quotient, each
of them rounded.  It is the double again where no sum needs rounding; otherwise every
sum may be off by a little more.

* `total_replicate_succ` : one more copy is one more sum;
* `SignedAmount.total_replicate` : how far a finite sum of copies can be off;
* `SignedAmount.total_replicate_exact` : a sum of copies that is exact;
* `le_of_isMagnitude` : only so many multiples of a double are doubles;
* `quotient_error` : what a rounded sum, a rounded count and their quotient come to;
* `abs_doubleValue_mean_sub_le`, `mean_replicate_eq_of_isDouble` : **how near the mean is,
  and when it is exact.**
-/
import SymbolicRegression.Proofs.Mean

namespace SymbolicRegression

open Float.Model Float.Model.UnpackedFloat

/-! ## Sums of copies -/

/-- Nothing brings an infinity or a NaN back. -/
theorem isFinite_of_isFinite_unpackedAdd {u v : UnpackedFloat}
    (h : (UnpackedFloat.add .binary64 u v).isFinite = true) : u.isFinite = true := by
  cases u with
  | notANumber => cases v <;> cases h
  | infinity s =>
    cases v with
    | infinity t => cases s <;> cases t <;> cases h
    | _ => cases h
  | zero s => rfl
  | finite s m e hm => rfl

/-- A finite sum has a finite first summand. -/
theorem isFinite_of_isFinite_add {x y : Float} (h : (x + y).isFinite = true) :
    x.isFinite = true :=
  isFinite_of_isFinite_unpackedAdd (isFinite_of_isFinite_unpack_pack h)

/-- One more copy is one more sum. -/
theorem total_replicate_succ (n : ℕ) (c : Float) :
    total (List.replicate (n + 1) c) = total (List.replicate n c) + c := by
  rw [total, total, List.replicate_succ', List.foldl_append, List.foldl_cons, List.foldl_nil]

/-- The running sum of one value is that value. -/
theorem total_replicate_one (c : Float) : total (List.replicate 1 c) = c := by
  rw [List.replicate_one, total_cons, List.foldl_nil]

/-- Half a unit of the last place of one. -/
def unitRoundoff : ℚ := 1 / 2 ^ 53

theorem div_eq_mul_unitRoundoff (x : ℚ) : x / 2 ^ 53 = x * unitRoundoff :=
  div_eq_mul_one_div x _

theorem unitRoundoff_pos : 0 < unitRoundoff := by
  rw [unitRoundoff]
  positivity

theorem unitRoundoff_lt_one : unitRoundoff < 1 := by
  rw [unitRoundoff]
  norm_num

section Copies

variable {s : Sign} {c : Float} {q : ℚ} {n : ℕ}

/-- One more sum: the relative error grows by one factor at most. -/
theorem sum_error_step {k p q z u : ℚ} {n : ℕ} (hu : 0 ≤ u) (hu' : u ≤ 1) (hq : 0 ≤ q)
    (hlow : k * q * (1 - u) ^ n ≤ p) (hhigh : p ≤ k * q * (1 + u) ^ n)
    (hround : |z - (p + q)| ≤ (p + q) * u) :
    (k + 1) * q * (1 - u) ^ (n + 1) ≤ z ∧ z ≤ (k + 1) * q * (1 + u) ^ (n + 1) := by
  obtain ⟨hbelow, habove⟩ := abs_le.1 hround
  have hless : (1 - u) ^ n ≤ 1 := pow_le_one₀ (by linarith) (by linarith)
  have hmore : 1 ≤ (1 + u) ^ n := one_le_pow₀ (by linarith)
  constructor
  · calc (k + 1) * q * (1 - u) ^ (n + 1)
        = (k * q * (1 - u) ^ n + q * (1 - u) ^ n) * (1 - u) := by ring
      _ ≤ (p + q * 1) * (1 - u) := by
          refine mul_le_mul_of_nonneg_right ?_ (by linarith)
          exact add_le_add hlow (mul_le_mul_of_nonneg_left hless hq)
      _ ≤ z := by linarith
  · calc z ≤ (p + q * 1) * (1 + u) := by linarith
      _ ≤ (k * q * (1 + u) ^ n + q * (1 + u) ^ n) * (1 + u) := by
          refine mul_le_mul_of_nonneg_right ?_ (by linarith)
          exact add_le_add hhigh (mul_le_mul_of_nonneg_left hmore hq)
      _ = (k + 1) * q * (1 + u) ^ (n + 1) := by ring

/-- **How far a sum of copies can be off.**  If the sum is finite, all sums on the way
are, and each adds one factor to the relative error. -/
theorem SignedAmount.total_replicate (hc : SignedAmount s c q) (hn : 1 ≤ n)
    (h : (total (List.replicate n c)).isFinite = true) :
    ∃ z, SignedAmount s (total (List.replicate n c)) z ∧
      n * q * (1 - unitRoundoff) ^ n ≤ z ∧ z ≤ n * q * (1 + unitRoundoff) ^ n := by
  have hu := unitRoundoff_pos
  have hu' := unitRoundoff_lt_one
  -- from one copy on, since the empty sum has a sign of its own
  induction n, hn using Nat.le_induction with
  | base =>
    refine ⟨q, ?_, ?_, ?_⟩
    · rwa [total_replicate_one]
    · rw [Nat.cast_one, one_mul, pow_one]
      exact mul_le_of_le_one_right hc.nonneg (by linarith)
    · rw [Nat.cast_one, one_mul, pow_one]
      exact le_mul_of_one_le_right hc.nonneg (by linarith)
  | succ n hn ih =>
    rw [total_replicate_succ] at h ⊢
    obtain ⟨p, hp, hlow, hhigh⟩ := ih (isFinite_of_isFinite_add h)
    obtain ⟨z, hround, hz⟩ := hp.add hc h
    -- sums of doubles are whole numbers of least units, and those are rounded well
    obtain ⟨k, hk⟩ := hp.exists_units
    obtain ⟨k', hk'⟩ := hc.exists_units
    have hunits : p + q = ((k + k' : ℕ) : ℚ) * 2 ^ (-1074 : ℤ) := by
      rw [Nat.cast_add, add_mul, ← hk, ← hk']
    have herror := hround.abs_sub_le_of_units hunits
    rw [div_eq_mul_unitRoundoff] at herror
    have hstep := sum_error_step hu.le hu'.le hc.nonneg hlow hhigh herror
    rw [Nat.cast_succ]
    exact ⟨z, hz, hstep⟩

/-- **A sum of copies is exact** where the multiples of the copied number are doubles. -/
theorem SignedAmount.total_replicate_exact (hc : SignedAmount s c q) (hn : 1 ≤ n)
    (hmultiples : ∀ k ≤ n, IsMagnitude (k * q)) :
    SignedAmount s (total (List.replicate n c)) (n * q) := by
  induction n, hn using Nat.le_induction with
  | base =>
    rw [total_replicate_one, Nat.cast_one, one_mul]
    exact hc
  | succ n hn ih =>
    have hsum : ((n + 1 : ℕ) : ℚ) * q = n * q + q := by
      rw [Nat.cast_succ]
      ring
    have hexact : IsMagnitude (n * q + q) := hsum ▸ hmultiples (n + 1) le_rfl
    rw [total_replicate_succ, hsum]
    exact (ih fun k hk => hmultiples k (by omega)).add_exact hc hexact

end Copies

/-! ## Multiples that are doubles -/

/-- The product of a number of 54 bits with an odd one has too many bits for a mantissa. -/
theorem odd_multiple_ne {j o : ℕ} {e f : ℤ} (hj : j < 2 ^ 53) (ho : Odd o) :
    ((2 ^ 53 + 1 : ℕ) : ℚ) * (o * 2 ^ e) ≠ j * 2 ^ f := by
  intro h
  have hodd : Odd ((2 ^ 53 + 1) * o) := (by decide : Odd (2 ^ 53 + 1)).mul ho
  rcases le_or_gt f e with hle | hlt
  · -- the mantissa would be too large
    obtain ⟨k, rfl⟩ : ∃ k : ℕ, e = f + k := ⟨(e - f).toNat, by omega⟩
    rw [zpow_add₀ (by norm_num), zpow_natCast] at h
    have hpos : (0 : ℚ) < 2 ^ f := by positivity
    have heq : (((2 ^ 53 + 1) * o * 2 ^ k : ℕ) : ℚ) = j := by
      refine mul_right_cancel₀ hpos.ne' ?_
      rw [← h]
      push_cast
      ring
    have hnat : (2 ^ 53 + 1) * o * 2 ^ k = j := by exact_mod_cast heq
    have hge : 2 ^ 53 + 1 ≤ (2 ^ 53 + 1) * o * 2 ^ k := by
      rw [Nat.mul_assoc]
      exact Nat.le_mul_of_pos_right _ (Nat.mul_pos ho.pos (by positivity))
    omega
  · -- the product would be even
    obtain ⟨k, rfl⟩ : ∃ k : ℕ, f = e + (k + 1 : ℕ) := ⟨(f - e - 1).toNat, by omega⟩
    rw [zpow_add₀ (by norm_num), zpow_natCast] at h
    have hpos : (0 : ℚ) < 2 ^ e := by positivity
    have heq : (((2 ^ 53 + 1) * o : ℕ) : ℚ) = ((j * 2 ^ (k + 1) : ℕ) : ℚ) := by
      refine mul_right_cancel₀ hpos.ne' ?_
      push_cast at h ⊢
      linarith
    have hnat : (2 ^ 53 + 1) * o = j * 2 ^ (k + 1) := by exact_mod_cast heq
    rw [hnat, Nat.pow_succ, ← Nat.mul_assoc] at hodd
    exact Nat.not_odd_iff_even.2 (even_two.mul_left _) hodd

/-- **Only so many multiples of a double are doubles**, unless it is zero: counting them
never needs more than 53 bits. -/
theorem le_of_isMagnitude {u : UnpackedFloat} {q : ℚ} (hu : HasAmount u q) (hq : q ≠ 0) {n : ℕ}
    (hmultiples : ∀ k ≤ n, IsMagnitude (k * q)) : n ≤ 2 ^ 53 := by
  by_contra hlarge
  obtain ⟨v, hv, -⟩ := hmultiples (2 ^ 53 + 1) (by omega)
  cases hu with
  | zero => exact hq rfl
  | @finite m e hm hc =>
    -- what makes the mantissa even goes to the exponent
    obtain ⟨a, o, ho, rfl⟩ := Nat.exists_eq_two_pow_mul_odd hm.ne'
    have hvalue : ((2 ^ a * o : ℕ) : ℚ) * 2 ^ e = o * 2 ^ (a + e) := by
      rw [zpow_add₀ (by norm_num), zpow_natCast]
      push_cast
      ring
    rw [hvalue] at hv
    generalize hproduct : ((2 ^ 53 + 1 : ℕ) : ℚ) * (o * 2 ^ (a + e)) = r at hv
    cases hv with
    | zero =>
      have hpos : (0 : ℚ) < ((2 ^ 53 + 1 : ℕ) : ℚ) * (o * 2 ^ (a + e)) := by
        have ho' : (0 : ℚ) < o := by exact_mod_cast ho.pos
        positivity
      exact hpos.ne' hproduct
    | finite hm' hc' => exact odd_multiple_ne hc'.lt ho hproduct

/-! ## Means of copies -/

/-- What `n` sums, a count and a quotient can be off by, relative to the exact mean: little
more than `n + 3` times half a unit of the last place. -/
def relativeError (n : ℕ) : ℚ := (1 + unitRoundoff) ^ (n + 3) - 1

/-- By Bernoulli's inequality. -/
theorem le_relativeError (n : ℕ) : (n + 3) * unitRoundoff ≤ relativeError n := by
  have hu := unitRoundoff_pos
  have hbernoulli := one_add_mul_le_pow (by linarith : -2 ≤ unitRoundoff) (n + 3)
  rw [relativeError]
  push_cast at hbernoulli
  linarith

section Quotient

variable {q total count : ℚ} {n : ℕ}

/-- A rounded count is positive. -/
theorem count_pos (hn : 0 < n) (hcount : |count - n| ≤ n * unitRoundoff) : 0 < count := by
  have hu := unitRoundoff_lt_one
  have hn' : (0 : ℚ) < n := by exact_mod_cast hn
  have hleast : 0 < n * (1 - unitRoundoff) := mul_pos hn' (by linarith)
  obtain ⟨hless, -⟩ := abs_le.1 hcount
  linarith

/-- Below, there is a factor for each sum and one for the count. -/
theorem quotient_ge (hn : 0 < n) (hq : 0 ≤ q)
    (hlow : n * q * (1 - unitRoundoff) ^ n ≤ total) (hcount : |count - n| ≤ n * unitRoundoff) :
    q * (1 - unitRoundoff) ^ (n + 1) ≤ total / count := by
  have hu := unitRoundoff_lt_one
  have hpower : 0 ≤ (1 - unitRoundoff) ^ n := pow_nonneg (by linarith) _
  have hfactor : 0 ≤ q * (1 - unitRoundoff) ^ (n + 1) := mul_nonneg hq (pow_nonneg (by linarith) _)
  have hsquare : 0 ≤ n * q * (1 - unitRoundoff) ^ n * unitRoundoff ^ 2 := by positivity
  obtain ⟨-, hmore⟩ := abs_le.1 hcount
  rw [le_div_iff₀ (count_pos hn hcount)]
  calc q * (1 - unitRoundoff) ^ (n + 1) * count
      ≤ q * (1 - unitRoundoff) ^ (n + 1) * (n * (1 + unitRoundoff)) :=
        mul_le_mul_of_nonneg_left (by linarith) hfactor
    _ = n * q * (1 - unitRoundoff) ^ n - n * q * (1 - unitRoundoff) ^ n * unitRoundoff ^ 2 := by
        ring
    _ ≤ total := by linarith

/-- Above, there are two for the count. -/
theorem quotient_le (hn : 0 < n) (hq : 0 ≤ q)
    (hhigh : total ≤ n * q * (1 + unitRoundoff) ^ n) (hcount : |count - n| ≤ n * unitRoundoff) :
    total / count ≤ q * (1 + unitRoundoff) ^ (n + 2) := by
  have hu := unitRoundoff_pos
  have hsmall : 1 ≤ (1 + unitRoundoff) ^ 2 * (1 - unitRoundoff) := by
    rw [unitRoundoff]
    norm_num
  obtain ⟨hless, -⟩ := abs_le.1 hcount
  rw [div_le_iff₀ (count_pos hn hcount)]
  calc total ≤ n * q * (1 + unitRoundoff) ^ n * 1 := by linarith
    _ ≤ n * q * (1 + unitRoundoff) ^ n * ((1 + unitRoundoff) ^ 2 * (1 - unitRoundoff)) :=
        mul_le_mul_of_nonneg_left hsmall (by positivity)
    _ = q * (1 + unitRoundoff) ^ (n + 2) * (n * (1 - unitRoundoff)) := by ring
    _ ≤ q * (1 + unitRoundoff) ^ (n + 2) * count :=
        mul_le_mul_of_nonneg_left (by linarith) (by positivity)

/-- **The quotient by a rounded count, rounded once more.** -/
theorem quotient_error {z limit : ℚ} (hn : 0 < n) (hq : 0 ≤ q)
    (hlow : n * q * (1 - unitRoundoff) ^ n ≤ total)
    (hhigh : total ≤ n * q * (1 + unitRoundoff) ^ n)
    (hcount : |count - n| ≤ n * unitRoundoff)
    (hround : |z - total / count| ≤ total / count * unitRoundoff + limit) :
    |z - q| ≤ relativeError n * q + limit := by
  have hu := unitRoundoff_pos
  have hu' := unitRoundoff_lt_one
  obtain ⟨hbelow, habove⟩ := abs_le.1 hround
  have hmost : z ≤ (relativeError n + 1) * q + limit := by
    calc z ≤ total / count * (1 + unitRoundoff) + limit := by linarith
      _ ≤ q * (1 + unitRoundoff) ^ (n + 2) * (1 + unitRoundoff) + limit := by
          refine add_le_add_left ?_ _
          exact mul_le_mul_of_nonneg_right (quotient_le hn hq hhigh hcount) (by linarith)
      _ = (relativeError n + 1) * q + limit := by
          rw [relativeError]
          ring
  have hleast : q * (1 - (n + 2) * unitRoundoff) - limit ≤ z := by
    have hbernoulli := one_add_mul_le_pow (by linarith : -2 ≤ -unitRoundoff) (n + 2)
    rw [← sub_eq_add_neg] at hbernoulli
    push_cast at hbernoulli
    calc q * (1 - (n + 2) * unitRoundoff) - limit
        ≤ q * (1 - unitRoundoff) ^ (n + 2) - limit := by
          refine sub_le_sub_right (mul_le_mul_of_nonneg_left ?_ hq) _
          linarith
      _ = q * (1 - unitRoundoff) ^ (n + 1) * (1 - unitRoundoff) - limit := by ring
      _ ≤ total / count * (1 - unitRoundoff) - limit := by
          refine sub_le_sub_right ?_ _
          exact mul_le_mul_of_nonneg_right (quotient_ge hn hq hlow hcount) (by linarith)
      _ ≤ z := by linarith
  have herror := mul_le_mul_of_nonneg_right (le_relativeError n) hq
  have hunit : 0 ≤ unitRoundoff * q := mul_nonneg hu.le hq
  rw [abs_le]
  constructor <;> linarith

end Quotient

/-- The mean of copies is their running sum by their count. -/
theorem mean_replicate (n : ℕ) (c : Float) :
    mean (List.replicate n c) = total (List.replicate n c) / Float.ofNat n := by
  rw [mean, List.length_replicate]

section Mean

variable {s : Sign} {c : Float} {q : ℚ} {n : ℕ}

/-- **The mean of copies is nearly the copied number**, as long as their sum is finite. -/
theorem SignedAmount.mean_replicate_near (hc : SignedAmount s c q) (hn : 0 < n)
    (h : (total (List.replicate n c)).isFinite = true) :
    ∃ z, SignedAmount s (mean (List.replicate n c)) z ∧
      |z - q| ≤ relativeError n * q + 2 ^ (-1075 : ℤ) := by
  obtain ⟨p, hp, hlow, hhigh⟩ := hc.total_replicate hn h
  rw [mean_replicate]
  rcases amount_or_infinity_ofNat hn with ⟨count, hcount, hround⟩ | ⟨hlarge, hinfinity⟩
  · have hone := one_le_of_isRounding hn hround
    obtain ⟨z, hquotient, hz⟩ := hp.div hcount hone
    have hcount_near := hround.abs_sub_le (by exact_mod_cast hn)
    have hnonneg : 0 ≤ p / count := div_nonneg hp.nonneg (by linarith)
    have hquotient_near := hquotient.abs_sub_le_add hnonneg
    rw [div_eq_mul_unitRoundoff] at hcount_near hquotient_near
    exact ⟨z, hz, quotient_error hn hc.nonneg hlow hhigh hcount_near hquotient_near⟩
  · -- so many copies that the bound says nothing
    have hone : 1 ≤ relativeError n := by
      have hmany : (2 : ℚ) ^ 53 ≤ n := by
        exact_mod_cast (by decide : 2 ^ 53 ≤ wordBound).trans hlarge
      refine le_trans ?_ (le_relativeError n)
      rw [unitRoundoff, mul_one_div, le_div_iff₀ (by positivity)]
      linarith
    refine ⟨0, hp.div_infinity hinfinity, ?_⟩
    have hlimit : (0 : ℚ) ≤ 2 ^ (-1075 : ℤ) := by positivity
    rw [zero_sub, abs_neg, abs_of_nonneg hc.nonneg]
    have hle := le_mul_of_one_le_left hc.nonneg hone
    linarith

/-- **The mean of copies is the copied double** where all multiples up to the number of
copies are doubles. -/
theorem SignedAmount.mean_replicate_eq (hc : SignedAmount s c q) (hn : 0 < n)
    (hmultiples : ∀ k ≤ n, IsMagnitude (k * q)) : mean (List.replicate n c) = c := by
  have htotal := hc.total_replicate_exact hn hmultiples
  have hc' := hc
  obtain ⟨u, hu, -⟩ := hc
  rw [mean_replicate]
  refine SignedAmount.ext ?_ hc'
  rcases amount_or_infinity_ofNat hn with ⟨count, hcount, hround⟩ | ⟨hlarge, hinfinity⟩
  · have hone := one_le_of_isRounding hn hround
    obtain ⟨z, hquotient, hz⟩ := htotal.div hcount hone
    -- the count is exact as well, unless it is zero that is divided by it
    have hexact : n * q / count = q := by
      rcases eq_or_ne q 0 with rfl | hq
      · rw [mul_zero, zero_div]
      · obtain rfl := hround.eq_natCast (le_of_isMagnitude hu hq hmultiples)
        rw [mul_div_cancel_left₀ _ (by positivity)]
    rw [hexact] at hquotient
    obtain rfl := hquotient.eq_of_hasAmount hu
    exact hz
  · -- only the multiples of zero are doubles for so long
    have hzero : q = 0 := by
      by_contra hq
      have hle := le_of_isMagnitude hu hq hmultiples
      exact absurd (hlarge.trans hle) (by decide)
    have hdiv := htotal.div_infinity hinfinity
    rwa [hzero]

end Mean

section Double

variable {c : Float} {n : ℕ}

/-- The mean of copies, by the numbers that the doubles stand for. -/
theorem abs_doubleValue_mean_sub_le (hc : c.isFinite = true) (hn : 0 < n)
    (h : (total (List.replicate n c)).isFinite = true) :
    |doubleValue (mean (List.replicate n c)) - doubleValue c| ≤
      relativeError n * |doubleValue c| + 2 ^ (-1075 : ℤ) := by
  have hamount := signedAmount_of_isFinite hc
  obtain ⟨z, hz, hnear⟩ := hamount.mean_replicate_near hn h
  rw [hz.doubleValue_eq, hamount.doubleValue_eq, ← mul_sub, abs_signFactor_mul,
    abs_signFactor_mul, abs_of_nonneg hamount.nonneg]
  exact hnear

theorem mean_replicate_eq_of_isDouble (hc : c.isFinite = true) (hn : 0 < n)
    (hmultiples : ∀ k ≤ n, IsDouble (k * doubleValue c)) : mean (List.replicate n c) = c := by
  have hamount := signedAmount_of_isFinite hc
  refine hamount.mean_replicate_eq hn ?_
  intro k hk
  have hmultiple := (hmultiples k hk).isMagnitude_abs
  rwa [abs_mul, Nat.abs_cast, hamount.doubleValue_eq, abs_signFactor_mul,
    abs_of_nonneg hamount.nonneg] at hmultiple

/-- A sum of copies is finite exactly when their mean is. -/
theorem isFinite_mean_replicate_iff (hc : c.isFinite = true) (hn : 0 < n) :
    (mean (List.replicate n c)).isFinite = true ↔
      (total (List.replicate n c)).isFinite = true := by
  constructor
  · intro h
    rw [mean_replicate] at h
    exact isFinite_of_isFinite_div_ofNat hn h
  · intro h
    obtain ⟨z, hz, -⟩ := (signedAmount_of_isFinite hc).mean_replicate_near hn h
    exact hz.isFinite

end Double

end SymbolicRegression
