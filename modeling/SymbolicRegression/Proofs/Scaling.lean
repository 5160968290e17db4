/-
# Reading a numeral as a double

The digits of a numeral that count never make more than its value.  So what is read is
at most the value, up to the rounding of the digits, of the power of ten, and of their
product or quotient.  This settles when a numeral can be read at all, and when what is
read is at most one.

* `Significand.value_ofNumeral_le` : the digits that count make no more than the numeral;
* `exists_scale_neg` : scaling down, in any number of steps;
* `Significand.exists_toFloat?`, `Numeral.exists_unsignedFloat?` : **a numeral that is
  clearly below the bound can be read, and one below one gives at most one.**
-/
import SymbolicRegression.Proofs.Arithmetic
import SymbolicRegression.Proofs.NumeralValue

namespace SymbolicRegression

open Float.Model

/-! ## The digits that count -/

namespace Significand

/-- The value of a significand. -/
def value (s : Significand) : ℚ := s.digits * 10 ^ s.exponent

/-- Digits before the point that make a number of 64 bits all count. -/
theorem addWhole_eq {n : Nat} {e : Int} {ds : List Digit}
    (h : n * 10 ^ ds.length + valueOf ds < wordBound) :
    addWhole ⟨n, e⟩ ds = ⟨n * 10 ^ ds.length + valueOf ds, e⟩ := by
  induction ds generalizing n with
  | nil => simp [addWhole, valueOf_nil]
  | cons d ds ih =>
    rw [mul_pow_add_valueOf_cons] at h ⊢
    have hfits : 10 * n + d.val < wordBound := by
      have hle : 10 * n + d.val ≤ (10 * n + d.val) * 10 ^ ds.length :=
        Nat.le_mul_of_pos_right _ (by positivity)
      omega
    rw [addWhole, if_pos hfits]
    exact ih h

/-- Adding digits after the point never makes too much. -/
theorem addFraction_le {n : Nat} {e : Int} (ds : List Digit) (hn : n < wordBound) :
    (addFraction ⟨n, e⟩ ds).digits < wordBound ∧ (addFraction ⟨n, e⟩ ds).exponent ≤ e ∧
      (addFraction ⟨n, e⟩ ds).value ≤
        (n * 10 ^ ds.length + valueOf ds : ℕ) * 10 ^ (e - ds.length) := by
  induction ds generalizing n e with
  | nil =>
    refine ⟨hn, le_refl e, ?_⟩
    simp [addFraction, value, valueOf_nil]
  | cons d ds ih =>
    have hpos : (0 : ℚ) < 10 ^ (e - (d :: ds).length) := by positivity
    rw [addFraction]
    split
    · rename_i hfits
      obtain ⟨hdigits, hexponent, hvalue⟩ := ih (e := e - 1) hfits
      have hgrid : e - 1 - (ds.length : Int) = e - (d :: ds).length := by
        rw [List.length_cons]
        omega
      rw [hgrid] at hvalue
      rw [mul_pow_add_valueOf_cons]
      exact ⟨hdigits, hexponent.trans (by omega), hvalue⟩
    · -- this digit and all later ones are left out, which only makes less of the numeral
      refine ⟨hn, le_refl e, ?_⟩
      calc value ⟨n, e⟩ = (n * 10 ^ (d :: ds).length : ℕ) * 10 ^ (e - (d :: ds).length) := by
            rw [value, Nat.cast_mul, mul_assoc, Nat.cast_pow, Nat.cast_ofNat, ← zpow_natCast,
              ← zpow_add₀ (by norm_num), add_sub_cancel]
        _ ≤ _ := by
            refine mul_le_mul_of_nonneg_right ?_ hpos.le
            exact_mod_cast Nat.le_add_right _ _

/-- **The digits that count make no more than the numeral.** -/
theorem value_ofNumeral_le {n : Numeral} (hwhole : n.whole.length ≤ 16) :
    (ofNumeral n).digits < wordBound ∧ (ofNumeral n).exponent ≤ 0 ∧
      (ofNumeral n).value ≤
        valueOf (n.whole ++ n.fraction) * 10 ^ (-(n.fraction.length : Int)) := by
  have hfits : valueOf n.whole < wordBound := by
    calc valueOf n.whole < 10 ^ n.whole.length := valueOf_lt _
      _ ≤ 10 ^ 16 := Nat.pow_le_pow_right (by decide) hwhole
      _ < wordBound := by decide
  have hall : addWhole ⟨0, 0⟩ n.whole = ⟨valueOf n.whole, 0⟩ := by
    rw [addWhole_eq] <;> rw [Nat.zero_mul, Nat.zero_add]
    exact hfits
  have h := addFraction_le (e := 0) n.fraction hfits
  rw [← valueOf_append, zero_sub] at h
  rwa [ofNumeral, hall]

end Significand

/-! ## Scaling -/

/-- Dividing by a power of ten.  From the 23rd on, it outweighs all digits. -/
theorem amount_div_tenTo {f : Float} {p : ℚ} {k : Nat} (hf : Amount f p) (hp : p ≤ 2 ^ 65)
    (hk : k ≤ 308) : ∃ t z, Amount (f / tenTo k) z ∧ IsRounding (p / t) z ∧
      0 < t ∧ (1 ≤ k → 1 ≤ t) ∧ (23 ≤ k → 2 ^ 65 ≤ t) ∧ (k ≤ 22 → t = 10 ^ k) := by
  obtain ⟨t, ht, hnear, hexact⟩ := amount_tenTo hk
  have hten : (1 : ℚ) ≤ 10 ^ k := one_le_pow₀ (by norm_num)
  have hhalf : 10 ^ k / 2 ≤ t := by
    have hlow := (abs_le.1 hnear).1
    have hunit : (10 : ℚ) ^ k / 2 ^ 53 ≤ 10 ^ k / 2 :=
      div_le_div_of_nonneg_left (by positivity) (by norm_num) (by norm_num)
    linarith
  have hgrow {low : Nat} (hlow : low ≤ k) : (10 : ℚ) ^ low ≤ 2 * t := by
    have hmono : (10 : ℚ) ^ low ≤ 10 ^ k := pow_le_pow_right₀ (by norm_num) hlow
    linarith
  have hbound : p / t < roundingBound := by
    refine lt_of_le_of_lt ?_ two_pow_lt_roundingBound
    calc p / t ≤ 2 ^ 65 / (1 / 2) := div_le_div₀ (by norm_num) hp (by norm_num) (by linarith)
      _ ≤ 2 ^ (66 : ℤ) := by norm_num
      _ ≤ 2 ^ (1023 : ℤ) := zpow_le_zpow_right₀ (by norm_num) (by norm_num)
  obtain ⟨z, hz, hround⟩ := amount_div hf ht (by linarith) hbound
  refine ⟨t, z, hz, hround, by linarith, fun hk => ?_, fun hk => ?_, hexact⟩
  · have h := hgrow hk
    linarith
  · have h := hgrow hk
    norm_num at h ⊢
    linarith

/-- **Scaling down**, in any number of steps, gives a double.  It is at most one where the
number was, and also where the power of ten outweighs all digits. -/
theorem exists_scale_neg {steps : Nat} {f : Float} {p : ℚ} {k : Nat} (hf : Amount f p)
    (hp : p ≤ 2 ^ 65) (hk : 1 ≤ k) (hsteps : k ≤ 308 * steps) :
    ∃ g z, scale f (-k) steps = some g ∧ Amount g z ∧ (p ≤ 1 ∨ 23 ≤ k → z ≤ 1) := by
  induction steps generalizing f p k with
  | zero => omega
  | succ steps ih =>
    rw [scale, Int.natAbs_neg, Int.natAbs_natCast]
    by_cases hlast : k ≤ 308
    · obtain ⟨t, z, hz, hround, ht, hone, hlarge, -⟩ := amount_div_tenTo hf hp hlast
      rw [if_pos hlast, if_neg (by omega)]
      -- either the number was small, or the power of ten is great
      refine ⟨_, z, rfl, hz, fun hsmall => hround.div_le_one ht ?_⟩
      rcases hsmall with hsmall | hsmall
      · exact hsmall.trans (hone hk)
      · exact hp.trans (hlarge hsmall)
    · rw [if_neg hlast]
      split
      · rename_i hzero
        obtain rfl := (amount_beq_iff hf amount_zero).1 hzero
        exact ⟨f, 0, rfl, hf, fun _ => zero_le_one⟩
      · -- one step leaves less than one, so that nothing can go wrong in the next ones
        obtain ⟨t, z, hz, hround, ht, -, hlarge, -⟩ := amount_div_tenTo hf hp (Nat.le_refl 308)
        have hone : z ≤ 1 := hround.div_le_one ht (hp.trans (hlarge (by decide)))
        have hnext : -(k : Int) + 308 = -((k - 308 : ℕ) : Int) := by omega
        rw [if_neg (by omega), hnext]
        obtain ⟨g, z', hg, hz', hsmall⟩ :=
          ih (k := k - 308) hz (hone.trans (by norm_num)) (by omega) (by omega)
        exact ⟨g, z', hg, hz', fun _ => hsmall (.inl hone)⟩

/-! ## Numerals -/

namespace Significand

variable {s : Significand} {d : ℚ}

/-- The double of the digits is zero, or one at least. -/
theorem amount_digits (hdigits : s.digits < wordBound) :
    ∃ p, Amount (Float.ofNat s.digits) p ∧ p ≤ s.digits * (1 + 1 / 2 ^ 53) ∧ p ≤ 2 ^ 65 ∧
      (p = 0 ∧ s.digits = 0 ∨ 1 ≤ p ∧ 0 < s.digits) := by
  obtain ⟨p, hp, hnear, hexact⟩ := amount_ofNat hdigits
  obtain ⟨hlow, hhigh⟩ := abs_le.1 hnear
  have hword : (s.digits : ℚ) ≤ 2 ^ 64 := by exact_mod_cast hdigits.le
  refine ⟨p, hp, by linarith, by linarith, ?_⟩
  rcases Nat.eq_zero_or_pos s.digits with hzero | hpos
  · refine .inl ⟨?_, hzero⟩
    rw [hexact (by omega), hzero, Nat.cast_zero]
  · have hone : (1 : ℚ) ≤ s.digits := by exact_mod_cast hpos
    refine .inr ⟨?_, hpos⟩
    rcases Nat.lt_or_ge s.digits (2 ^ 53) with hsmall | hlarge
    · rwa [hexact hsmall]
    · have hcast : (2 : ℚ) ^ 53 ≤ s.digits := by exact_mod_cast hlarge
      linarith

/-- Scaling up. -/
theorem exists_toFloat?_of_nonneg (hdigits : s.digits < wordBound) (hnonneg : 0 ≤ s.exponent)
    (hexponent : s.exponent ≤ 308) (hvalue : s.value ≤ d)
    (hd : d * (1 + 1 / 2 ^ 53) ^ 2 < roundingBound) :
    ∃ f z, s.toFloat? = some f ∧ Amount f z ∧ (d < 1 → z ≤ 1) := by
  obtain ⟨k, hk⟩ : ∃ k : ℕ, s.exponent = k := ⟨s.exponent.toNat, by omega⟩
  have hten : (1 : ℚ) ≤ 10 ^ k := one_le_pow₀ (by norm_num)
  rw [value, hk, zpow_natCast] at hvalue
  obtain ⟨p, hp, hhigh, -, hcases⟩ := amount_digits hdigits
  obtain ⟨t, ht, hnear, -⟩ := amount_tenTo (k := k) (by omega)
  have ht' : t ≤ 10 ^ k * (1 + 1 / 2 ^ 53) := by linarith [(abs_le.1 hnear).2]
  have hproduct : p * t ≤ d * (1 + 1 / 2 ^ 53) ^ 2 := by
    calc p * t ≤ s.digits * (1 + 1 / 2 ^ 53) * (10 ^ k * (1 + 1 / 2 ^ 53)) := by
          refine mul_le_mul hhigh ht' ?_ (by positivity)
          linarith [(abs_le.1 hnear).1]
      _ = s.digits * 10 ^ k * (1 + 1 / 2 ^ 53) ^ 2 := by ring
      _ ≤ d * (1 + 1 / 2 ^ 53) ^ 2 := mul_le_mul_of_nonneg_right hvalue (by positivity)
  obtain ⟨z, hz, hround⟩ :=
    amount_mul hp ht (hcases.imp And.left And.left) (hproduct.trans_lt hd)
  refine ⟨_, z, ?_, hz, fun hone => ?_⟩
  · rw [toFloat?, scale, hk, Int.natAbs_natCast, if_pos (by omega), if_pos (by omega)]
    simp only [isInf_of_amount hz]
    rfl
  · -- below one there is no digit but zero
    rcases hcases with ⟨rfl, -⟩ | ⟨-, hpos⟩
    · rw [zero_mul] at hround
      exact hround.le_one (by norm_num)
    · have hdigit : (1 : ℚ) ≤ s.digits := by exact_mod_cast hpos
      have hge : (1 : ℚ) ≤ s.digits * 10 ^ k := one_le_mul_of_one_le_of_one_le hdigit hten
      linarith

/-- Scaling down. -/
theorem exists_toFloat?_of_neg (hdigits : s.digits < wordBound) (hneg : s.exponent < 0)
    (hvalue : s.value ≤ d) :
    ∃ f z, s.toFloat? = some f ∧ Amount f z ∧ (d ≤ 1 - 1 / 2 ^ 54 → z ≤ 1) := by
  obtain ⟨k, hk⟩ : ∃ k : ℕ, s.exponent = -k := ⟨s.exponent.natAbs, by omega⟩
  obtain ⟨p, hp, hhigh, hbound, -⟩ := amount_digits hdigits
  rcases Nat.lt_or_ge k 23 with hsmall | hlarge
  · -- the power of ten is exact, so only the digits and the quotient are rounded
    obtain ⟨t, z, hz, hround, -, -, -, hexact⟩ := amount_div_tenTo hp hbound (k := k) (by omega)
    refine ⟨_, z, ?_, hz, fun hone => hround.le_one ?_⟩
    · rw [toFloat?, scale, hk, Int.natAbs_neg, Int.natAbs_natCast, if_pos (by omega),
        if_neg (by omega)]
    · rw [value, hk, zpow_neg, zpow_natCast, ← div_eq_mul_inv] at hvalue
      rw [hexact (by omega)]
      calc p / 10 ^ k ≤ s.digits * (1 + 1 / 2 ^ 53) / 10 ^ k :=
            div_le_div_of_nonneg_right hhigh (by positivity)
        _ = s.digits / 10 ^ k * (1 + 1 / 2 ^ 53) := by ring
        _ ≤ (1 - 1 / 2 ^ 54) * (1 + 1 / 2 ^ 53) :=
            mul_le_mul_of_nonneg_right (hvalue.trans hone) (by positivity)
        _ < 1 + 1 / 2 ^ 53 := by norm_num
  · have hsteps : k ≤ 308 * (k / 308 + 1) := by omega
    obtain ⟨f, z, hf, hz, hone⟩ := exists_scale_neg hp hbound (by omega) hsteps
    refine ⟨f, z, ?_, hz, fun _ => hone (.inr hlarge)⟩
    rw [toFloat?, hk, Int.natAbs_neg, Int.natAbs_natCast, hf]

/-- A significand that is clearly below the bound denotes a double. -/
theorem exists_toFloat? (hdigits : s.digits < wordBound) (hexponent : s.exponent ≤ 308)
    (hvalue : s.value ≤ d) (hd : d * (1 + 1 / 2 ^ 53) ^ 2 < roundingBound) :
    ∃ f z, s.toFloat? = some f ∧ Amount f z ∧ (d ≤ 1 - 1 / 2 ^ 54 → z ≤ 1) := by
  rcases lt_or_ge s.exponent 0 with hneg | hnonneg
  · exact exists_toFloat?_of_neg hdigits hneg hvalue
  · obtain ⟨f, z, hf, hz, hone⟩ := exists_toFloat?_of_nonneg hdigits hnonneg hexponent hvalue hd
    exact ⟨f, z, hf, hz, fun h => hone (h.trans_lt (by norm_num))⟩

/-- A small power of ten outweighs all digits. -/
theorem value_le_half (hdigits : s.digits < wordBound) (hexponent : s.exponent ≤ -64) :
    s.value ≤ 1 / 2 := by
  have hword : (s.digits : ℚ) ≤ 2 ^ 64 := by exact_mod_cast hdigits.le
  calc s.value ≤ 2 ^ 64 * 10 ^ (-64 : ℤ) :=
        mul_le_mul hword (zpow_le_zpow_right₀ (by norm_num) hexponent) (by positivity)
          (by positivity)
    _ ≤ 1 / 2 := by norm_num

/-- So does one with a written power of ten, even if that is too small to be kept. -/
theorem exists_withExponent? {e : Exponent} (hdigits : s.digits < wordBound)
    (hexponent : s.exponent ≤ 0) (hpower : e.power ≤ 308)
    (hvalue : s.value * 10 ^ e.power ≤ d) (hd : d * (1 + 1 / 2 ^ 53) ^ 2 < roundingBound) :
    ∃ f z, s.withExponent? e = some f ∧ Amount f z ∧ (d ≤ 1 - 1 / 2 ^ 54 → z ≤ 1) := by
  have hsum : (if e.sign = .minus then s.exponent - valueOf e.digits
      else s.exponent + valueOf e.digits) = s.exponent + e.power := by
    rw [Exponent.power]
    split <;> omega
  rw [withExponent?]
  simp only [hsum]
  split
  · by_cases hkept : -2147483648 ≤ s.exponent + e.power
    · have hclamp : clampExponent (s.exponent + e.power) = s.exponent + e.power := by
        rw [clampExponent]
        omega
      rw [hclamp]
      refine exists_toFloat? hdigits (show s.exponent + e.power ≤ 308 by omega) ?_ hd
      rwa [value, zpow_add₀ (by norm_num), ← mul_assoc]
    · have hclamp : clampExponent (s.exponent + e.power) = -2147483648 := by
        rw [clampExponent]
        omega
      rw [hclamp]
      obtain ⟨f, z, hf, hz, hone⟩ := exists_toFloat?_of_neg
        (s := ⟨s.digits, -2147483648⟩) (d := 1 / 2) hdigits
        (show (-2147483648 : Int) < 0 by decide)
        (value_le_half hdigits (show (-2147483648 : Int) ≤ -64 by decide))
      exact ⟨f, z, hf, hz, fun _ => hone (by norm_num)⟩
  · rename_i hlarge
    have hminus : e.sign = .minus := by
      by_contra hne
      rw [Exponent.power, if_neg hne] at hpower
      omega
    rw [if_pos (.inl hminus)]
    exact ⟨0.0, 0, rfl, .zero, fun _ => zero_le_one⟩

end Significand

/-- **A numeral that is clearly below the bound can be read**, and one below one gives at
most one. -/
theorem Numeral.exists_unsignedFloat? {n : Numeral} {d : ℚ} (hwhole : n.whole.length ≤ 16)
    (hpower : ∀ e, n.exponent = some e → e.power ≤ 308) (hvalue : n.value ≤ d)
    (hd : d * (1 + 1 / 2 ^ 53) ^ 2 < roundingBound) :
    ∃ f z, n.unsignedFloat? = some f ∧ Amount f z ∧ (d ≤ 1 - 1 / 2 ^ 54 → z ≤ 1) := by
  obtain ⟨hdigits, hexponent, hle⟩ := Significand.value_ofNumeral_le hwhole
  rw [Numeral.value, Numeral.grid] at hvalue
  rw [Numeral.unsignedFloat?]
  cases h : n.exponent with
  | none =>
    rw [h] at hvalue
    simp only [zero_sub] at hvalue
    exact Significand.exists_toFloat? hdigits (by omega) (hle.trans hvalue) hd
  | some e =>
    rw [h] at hvalue
    refine Significand.exists_withExponent? hdigits hexponent (hpower e h) (le_trans ?_ hvalue) hd
    rw [sub_eq_neg_add, zpow_add₀ (by norm_num), ← mul_assoc]
    exact mul_le_mul_of_nonneg_right hle (by positivity)

end SymbolicRegression
