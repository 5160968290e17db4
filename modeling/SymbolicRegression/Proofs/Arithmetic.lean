/-
# The arithmetic of doubles

Products, quotients and conversions of doubles that are not negative, told by the
rational numbers that the doubles stand for: each is the exact result, rounded.

* `roundingBound` : from here on, a result is beyond all doubles;
* `amount_mul`, `amount_div`, `hasAmount_add` : **products, quotients and sums are rounded**;
* `amount_ofNat`, `amount_tenTo` : **so are natural numbers and powers of ten**;
* `toUInt64_pos` : what is one at least becomes a word that is not zero.
-/
import SymbolicRegression.Json.Number
import SymbolicRegression.Proofs.Amount

namespace SymbolicRegression

open Float.Model Float.Model.UnpackedFloat

/-! ## Products and quotients -/

/-- The least number that is rounded beyond all doubles. -/
def roundingBound : ℚ := (2 ^ 53 - 1 / 2) * 2 ^ (971 : ℤ)

theorem IsRounding.lt_of_lt_roundingBound {x y : ℚ} (h : IsRounding x y)
    (hx : x < roundingBound) : y < 2 ^ (1024 : ℤ) := by
  have hpos : (0 : ℚ) < 2 ^ (971 : ℤ) := by positivity
  have hle : y ≤ ((2 ^ 53 - 1 : ℕ) : ℚ) * 2 ^ (971 : ℤ) := by
    refine h.le_of_lt (by norm_num) (by norm_num) (by norm_num) (hx.trans_eq ?_)
    rw [roundingBound]
    norm_num
  calc y ≤ ((2 ^ 53 - 1 : ℕ) : ℚ) * 2 ^ (971 : ℤ) := hle
    _ < 2 ^ (53 : ℤ) * 2 ^ (971 : ℤ) := mul_lt_mul_of_pos_right (by norm_num) hpos
    _ = 2 ^ (1024 : ℤ) := (zpow_add₀ (by norm_num) _ _).symm

/-- A number below the bound is rounded to a double. -/
theorem amount_roundWithAccuracy {m : Nat} {e : Int} {a : Accuracy} {x : ℚ}
    (hx : Denotes m (x / 2 ^ e) a) (hbits : e ≤ -1074 ∨ 52 ≤ m.log2) (hbound : x < roundingBound) :
    ∃ y, Amount (.ofModel (.pack (roundWithAccuracy .binary64 .positive m e a))) y ∧
      IsRounding x y := by
  obtain ⟨y, hround, hy⟩ := hasAmount_roundWithAccuracy hx hbits
  exact ⟨y, amount_pack hy (hround.lt_of_lt_roundingBound hbound), hround⟩

theorem Canonical.normal_of_one_le {m : Nat} {e : Int} (hc : Canonical m e)
    (h : 1 ≤ (m : ℚ) * 2 ^ e) : 2 ^ 52 ≤ m := by
  refine hc.normal.resolve_left ?_
  rintro rfl
  have hlt : (m : ℚ) * 2 ^ (-1074 : ℤ) < 1 := by
    calc (m : ℚ) * 2 ^ (-1074 : ℤ) < 2 ^ ((-1074 : ℤ) + 53) := hc.lt_two_pow
      _ ≤ 1 := zpow_le_one_of_nonpos₀ (by norm_num) (by norm_num)
  exact absurd h (not_le.2 hlt)

theorem log2_mul_ge {m n : Nat} (hm : 2 ^ 52 ≤ m) (hn : 0 < n) : 52 ≤ (m * n).log2 := by
  have hle : 2 ^ 52 ≤ m * n := hm.trans (Nat.le_mul_of_pos_right m hn)
  exact (Nat.le_log2 (by omega)).2 hle

/-- **Products are rounded.**  The first factor is zero or at least one; what becomes of
smaller ones is not needed here. -/
theorem amount_mul {x y : Float} {p q : ℚ} (hx : Amount x p) (hy : Amount y q)
    (hp : p = 0 ∨ 1 ≤ p) (hbound : p * q < roundingBound) :
    ∃ z, Amount (x * y) z ∧ IsRounding (p * q) z := by
  show ∃ z, Amount (.ofModel (.pack
    (UnpackedFloat.mul .binary64 x.toModel.unpack y.toModel.unpack))) z ∧ _
  rw [Amount] at hx hy
  generalize x.toModel.unpack = u at hx
  generalize y.toModel.unpack = v at hy
  cases hx with
  | zero =>
    rw [zero_mul]
    refine ⟨0, ?_, .zero⟩
    cases hy <;> exact amount_zero
  | @finite m e hm hc =>
    cases hy with
    | zero =>
      rw [mul_zero]
      exact ⟨0, amount_zero, .zero⟩
    | @finite m' e' hm' hc' =>
      -- with 53 bits in the first factor there are bits enough in the product
      have hnormal : 2 ^ 52 ≤ m := by
        refine hc.normal_of_one_le (hp.resolve_left ?_)
        positivity
      have hdenotes : Denotes (m * m') ((m : ℚ) * 2 ^ e * (m' * 2 ^ e') / 2 ^ (e + e')) .exact := by
        rw [Denotes, zpow_add₀ (by norm_num)]
        field_simp
        push_cast
        ring
      exact amount_roundWithAccuracy hdenotes (.inr (log2_mul_ge hnormal hm')) hbound

theorem unpackedMul_comm (f : Format) (u v : UnpackedFloat) :
    UnpackedFloat.mul f u v = UnpackedFloat.mul f v u := by
  have hsign (s t : Sign) : s * t = t * s := by
    cases s <;> cases t <;> rfl
  cases u <;> cases v <;> simp only [UnpackedFloat.mul, hsign, Nat.mul_comm, Int.add_comm]

/-- A product does not depend on the order of its factors. -/
theorem float_mul_comm (x y : Float) : x * y = y * x :=
  congrArg (fun u => Float.ofModel (.pack u)) (unpackedMul_comm _ _ _)

/-- What long division leaves says where the quotient lies. -/
theorem denotes_div {a b : Nat} (hb : 0 < b) :
    Denotes (a / b) ((a : ℚ) / b) (accuracyOfFraction (a % b) b) := by
  have hb' : (0 : ℚ) < b := by exact_mod_cast hb
  have hval : (a : ℚ) / b = ((a / b : ℕ) : ℚ) + ((a % b : ℕ) : ℚ) / b := by
    have h : ((b * (a / b) + a % b : ℕ) : ℚ) = a := by exact_mod_cast Nat.div_add_mod a b
    rw [← h]
    push_cast
    field_simp
  have hlt : ((a % b : ℕ) : ℚ) / b < 1 := by
    rw [div_lt_one hb']
    exact_mod_cast Nat.mod_lt a hb
  rw [accuracyOfFraction]
  split
  · rename_i h
    rw [hval, h]
    simp [Denotes]
  · rename_i h
    have hpos : 0 < ((a % b : ℕ) : ℚ) / b := by
      refine div_pos ?_ hb'
      exact_mod_cast Nat.pos_of_ne_zero h
    rcases hcmp : compare (2 * (a % b)) b with _ | _ | _
    · have hrest : (2 * (a % b : ℕ) : ℚ) < b := by exact_mod_cast Nat.compare_eq_lt.1 hcmp
      have hhalf : ((a % b : ℕ) : ℚ) / b < 1 / 2 := by
        rw [div_lt_iff₀ hb']
        linarith
      rw [Denotes, hval]
      constructor <;> linarith
    · have hrest : (2 * (a % b : ℕ) : ℚ) = b := by exact_mod_cast Nat.compare_eq_eq.1 hcmp
      have hhalf : ((a % b : ℕ) : ℚ) / b = 1 / 2 := by
        rw [div_eq_iff hb'.ne']
        linarith
      rw [Denotes, hval]
      linarith
    · have hrest : (b : ℚ) < (2 * (a % b : ℕ) : ℚ) := by exact_mod_cast Nat.compare_eq_gt.1 hcmp
      have hhalf : 1 / 2 < ((a % b : ℕ) : ℚ) / b := by
        rw [lt_div_iff₀ hb']
        linarith
      rw [Denotes, hval]
      constructor <;> linarith

/-- The exponent that a quotient is worked out with. -/
def quotientExponent (m : Nat) (e : Int) (m' : Nat) (e' : Int) : Int :=
  min (e - e') (max ((m.log2 : Int) - m'.log2 + (e - e') - 53) (-1074))

section Quotient

variable {m m' shift : Nat} {e e' : Int}

theorem divCore_eq (hshift : (shift : Int) = e - e' - quotientExponent m e m' e') :
    divCore .binary64 m e m' e' = ((m <<< shift) / m', quotientExponent m e m' e',
      accuracyOfFraction ((m <<< shift) % m') m') := by
  have hbits : (Format.binary64.mantissaBits : Int) = 53 := rfl
  have hleast : Format.binary64.minExponent = -1074 := rfl
  have htarget : min (e - e')
      (Format.binary64.targetExponent (totalExponent m e - totalExponent m' e')) =
        quotientExponent m e m' e' := by
    rw [quotientExponent, Format.targetExponent, totalExponent, totalExponent, hbits, hleast]
    congr 2
    omega
  have hamount : (e - e' - quotientExponent m e m' e').toNat = shift := by omega
  simp only [divCore, htarget, hamount]

/-- What is worked out stands for the quotient. -/
theorem denotes_divCore (hm' : 0 < m')
    (hshift : (shift : Int) = e - e' - quotientExponent m e m' e') :
    Denotes ((m <<< shift) / m')
      ((m : ℚ) * 2 ^ e / (m' * 2 ^ e') / 2 ^ quotientExponent m e m' e')
      (accuracyOfFraction ((m <<< shift) % m') m') := by
  have hpow : (2 : ℚ) ^ e = 2 ^ shift * 2 ^ e' * 2 ^ quotientExponent m e m' e' := by
    rw [← zpow_natCast, ← zpow_add₀ (by norm_num), ← zpow_add₀ (by norm_num)]
    congr 1
    omega
  have hquotient : (m : ℚ) * 2 ^ e / (m' * 2 ^ e') / 2 ^ quotientExponent m e m' e' =
      ((m <<< shift : ℕ) : ℚ) / m' := by
    have hne : (m' : ℚ) ≠ 0 := by exact_mod_cast hm'.ne'
    rw [Nat.shiftLeft_eq, hpow]
    push_cast
    field_simp
  rw [hquotient]
  exact denotes_div hm'

/-- Bits enough are worked out. -/
theorem quotient_bits (hm : 0 < m) (hm' : 0 < m') (hlt : m < 2 ^ 53)
    (hshift : (shift : Int) = e - e' - quotientExponent m e m' e') :
    quotientExponent m e m' e' ≤ -1074 ∨ 52 ≤ ((m <<< shift) / m').log2 := by
  have hlog : m.log2 < 53 := (Nat.log2_lt hm.ne').2 hlt
  rw [quotientExponent] at hshift ⊢
  refine (le_or_gt _ (-1074)).imp_right fun hlarge => ?_
  have hbits : shift + m.log2 = 52 + (m'.log2 + 1) := by omega
  have hquotient : 2 ^ 52 ≤ (m <<< shift) / m' := by
    rw [Nat.le_div_iff_mul_le hm', Nat.shiftLeft_eq]
    calc 2 ^ 52 * m' ≤ 2 ^ 52 * 2 ^ (m'.log2 + 1) := Nat.mul_le_mul_left _ Nat.lt_log2_self.le
      _ = 2 ^ m.log2 * 2 ^ shift := by rw [← Nat.pow_add, ← hbits, Nat.add_comm, Nat.pow_add]
      _ ≤ m * 2 ^ shift := Nat.mul_le_mul_right _ (Nat.log2_self_le hm.ne')
  exact (Nat.le_log2 (by omega)).2 hquotient

end Quotient

/-- A quotient, before it is packed into bits, is the exact one, rounded. -/
theorem hasAmount_div {u v : UnpackedFloat} {p q : ℚ} (hu : HasAmount u p) (hv : HasAmount v q)
    (hq : 0 < q) : ∃ z, IsRounding (p / q) z ∧ HasAmount (UnpackedFloat.div .binary64 u v) z := by
  cases hv with
  | zero => exact absurd hq (lt_irrefl 0)
  | @finite m' e' hm' hc' =>
    cases hu with
    | zero =>
      rw [zero_div]
      exact ⟨0, .zero, .zero⟩
    | @finite m e hm hc =>
      obtain ⟨shift, hshift⟩ : ∃ shift : Nat, (shift : Int) = e - e' - quotientExponent m e m' e' :=
        ⟨(e - e' - quotientExponent m e m' e').toNat, by rw [quotientExponent]; omega⟩
      have h := hasAmount_roundWithAccuracy (denotes_divCore hm' hshift)
        (quotient_bits hm hm' hc.lt hshift)
      simp only [UnpackedFloat.div, divCore_eq hshift]
      exact h

/-- **Quotients are rounded.** -/
theorem amount_div {x y : Float} {p q : ℚ} (hx : Amount x p) (hy : Amount y q) (hq : 0 < q)
    (hbound : p / q < roundingBound) : ∃ z, Amount (x / y) z ∧ IsRounding (p / q) z := by
  obtain ⟨z, hround, hz⟩ := hasAmount_div hx hy hq
  exact ⟨z, amount_pack hz (hround.lt_of_lt_roundingBound hbound), hround⟩

/-! ## Sums -/

/-- **A mantissa and an exponent** stand for their number, rounded. -/
theorem hasAmount_normalize {m : Nat} (hm : 0 < m) (e : Int) :
    ∃ z, IsRounding (m * 2 ^ e) z ∧
      HasAmount (UnpackedFloat.normalize .binary64 m e .positive) z := by
  obtain ⟨shift, hshift⟩ : ∃ shift, shift = (e - max ((m.log2 : Int) + e - 52) (-1074)).toNat :=
    ⟨_, rfl⟩
  have hvalue : Denotes (m <<< shift) ((m : ℚ) * 2 ^ e / 2 ^ (e - (shift : ℤ))) .exact := by
    rw [Denotes, Nat.shiftLeft_eq, zpow_sub₀ (by norm_num), zpow_natCast]
    push_cast
    field_simp
  have hbits : e - (shift : Int) ≤ -1074 ∨ 52 ≤ (m <<< shift).log2 := by
    rcases le_or_gt (e - (shift : Int)) (-1074) with hleast | hleast
    · exact .inl hleast
    · refine .inr ((Nat.le_log2 ?_).2 ?_)
      · rw [Nat.shiftLeft_eq]
        positivity
      · rw [Nat.shiftLeft_eq]
        calc 2 ^ 52 ≤ 2 ^ (m.log2 + shift) := Nat.pow_le_pow_right (by decide) (by omega)
          _ = 2 ^ m.log2 * 2 ^ shift := Nat.pow_add _ _ _
          _ ≤ m * 2 ^ shift := Nat.mul_le_mul_right _ (Nat.log2_self_le hm.ne')
  have heq : UnpackedFloat.normalize .binary64 m e .positive =
      roundWithAccuracy .binary64 .positive (m <<< shift) (e - (shift : Int)) .exact := by
    have hgt : compare (m : Int) 0 = .gt := Int.compare_eq_gt.2 (by omega)
    have htarget := targetExponent_eq m e
    rw [UnpackedFloat.normalize, hgt]
    simp only [UnpackedFloat.round, UnpackedFloat.decreaseExponent, Int.toNat_natCast, htarget,
      hshift]
  rw [heq]
  exact hasAmount_roundWithAccuracy hvalue hbits

/-- Mantissas that are brought to one exponent do not vanish. -/
theorem shiftLeft_add_shiftLeft_pos {m : Nat} (hm : 0 < m) (m' i j : Nat) :
    0 < m <<< i + m' <<< j := by
  rw [Nat.shiftLeft_eq]
  positivity

/-- **A sum**, before it is packed into bits, is the exact one, rounded. -/
theorem hasAmount_add {u v : UnpackedFloat} {p q : ℚ} (hu : HasAmount u p) (hv : HasAmount v q) :
    ∃ z, IsRounding (p + q) z ∧ HasAmount (UnpackedFloat.add .binary64 u v) z := by
  cases hu with
  | zero =>
    rw [zero_add]
    refine ⟨q, .of_hasAmount hv, ?_⟩
    cases hv with
    | zero => exact .zero
    | finite hm' hc' => exact .finite hm' hc'
  | @finite m e hm hc =>
    cases hv with
    | zero =>
      rw [add_zero]
      exact ⟨_, .of_hasAmount (.finite hm hc), .finite hm hc⟩
    | @finite m' e' hm' hc' =>
      -- both mantissas are brought to the smaller exponent
      have hunits (k : Nat) (f : Int) (hf : min e e' ≤ f) :
          ((k <<< (f - min e e').toNat : ℕ) : ℚ) * 2 ^ (min e e') = k * 2 ^ f := by
        rw [Nat.shiftLeft_eq, Nat.cast_mul, Nat.cast_pow, Nat.cast_ofNat, mul_assoc,
          ← zpow_natCast, ← zpow_add₀ (by norm_num)]
        congr 2
        omega
      have hpos := shiftLeft_add_shiftLeft_pos hm m' (e - min e e').toNat (e' - min e e').toNat
      have hsum := hasAmount_normalize hpos (min e e')
      rw [Nat.cast_add, add_mul, hunits m e (min_le_left _ _), hunits m' e' (min_le_right _ _)]
        at hsum
      exact hsum

/-! ## Natural numbers and powers of ten -/

theorem two_pow_lt_roundingBound : (2 : ℚ) ^ (1023 : ℤ) < roundingBound := by
  rw [roundingBound, show (1023 : ℤ) = 52 + 971 from rfl, zpow_add₀ (by norm_num)]
  refine mul_lt_mul_of_pos_right ?_ (by positivity)
  norm_num

theorem ten_pow_lt_roundingBound : (10 : ℚ) ^ 308 < roundingBound := by
  have h : 10 ^ 308 < (2 ^ 54 - 1) * 2 ^ 970 := by decide +kernel
  have hcast : ((10 ^ 308 : ℕ) : ℚ) < ((2 ^ 54 - 1 : ℕ) : ℚ) * ((2 ^ 970 : ℕ) : ℚ) := by
    rw [← Nat.cast_mul]
    exact Nat.cast_lt.2 h
  rw [Nat.cast_pow, Nat.cast_pow] at hcast
  calc (10 : ℚ) ^ 308 < ((2 ^ 54 - 1 : ℕ) : ℚ) * 2 ^ 970 := hcast
    _ = roundingBound := by
      rw [roundingBound, show (971 : ℤ) = 1 + (970 : ℕ) from rfl, zpow_add₀ (by norm_num),
        zpow_natCast, zpow_one]
      generalize (2 : ℚ) ^ 970 = unit
      norm_num
      ring

/-- A natural number times a power of ten, before it is packed into bits, is that number, rounded. -/
theorem hasAmount_ofScientific {n k : Nat} (hn : 0 < n) (hk : k ≤ 308) :
    ∃ z, IsRounding (n * 10 ^ k) z ∧ HasAmount (UnpackedFloat.ofScientific .binary64 n k) z := by
  have hvalue : Denotes (n <<< 53 * 10 ^ k) ((n : ℚ) * 10 ^ k / 2 ^ (-53 + 0 : ℤ)) .exact := by
    rw [Denotes, Nat.shiftLeft_eq]
    push_cast
    norm_num
    ring
  have hbits : 2 ^ 52 ≤ n <<< 53 := by
    rw [Nat.shiftLeft_eq]
    omega
  have heq : UnpackedFloat.ofScientific .binary64 n k =
      roundWithAccuracy .binary64 .positive (n <<< 53 * 10 ^ k) (-53 + 0) .exact := by
    rw [UnpackedFloat.ofScientific, dif_neg hn.ne', if_neg (by norm_num; omega),
      if_neg (by norm_num; omega), if_pos (by omega)]
    rfl
  rw [heq]
  exact hasAmount_roundWithAccuracy hvalue (.inr (log2_mul_ge hbits (by positivity)))

/-- The double of a natural number times a power of ten is that number, rounded. -/
theorem amount_ofScientific {n k : Nat} (hn : 0 < n) (hk : k ≤ 308)
    (hbound : (n : ℚ) * 10 ^ k < roundingBound) :
    ∃ z, Amount (.ofModel (.ofScientific n k)) z ∧ IsRounding (n * 10 ^ k) z := by
  obtain ⟨z, hround, hz⟩ := hasAmount_ofScientific hn hk
  exact ⟨z, amount_pack hz (hround.lt_of_lt_roundingBound hbound), hround⟩

/-- The double of a natural number is that number, rounded. -/
theorem amount_model_ofNat {n : Nat} (hn : 0 < n) (hbound : (n : ℚ) < roundingBound) :
    ∃ z, Amount (.ofModel (.ofNat n)) z ∧ IsRounding n z := by
  obtain ⟨z, hround, hz⟩ := hasAmount_normalize hn 0
  rw [zpow_zero, mul_one] at hround
  exact ⟨z, amount_pack hz (hround.lt_of_lt_roundingBound hbound), hround⟩

theorem natCast_lt_roundingBound {n : Nat} (h : n < wordBound) : (n : ℚ) < roundingBound := by
  refine lt_trans ?_ two_pow_lt_roundingBound
  calc (n : ℚ) < 2 ^ (64 : ℤ) := by exact_mod_cast h
    _ ≤ 2 ^ (1023 : ℤ) := zpow_le_zpow_right₀ (by norm_num) (by norm_num)

/-- **A natural number becomes a double by rounding.** -/
theorem amount_ofNat {n : Nat} (h : n < wordBound) :
    ∃ z, Amount (Float.ofNat n) z ∧ |z - n| ≤ n / 2 ^ 53 ∧ (n < 2 ^ 53 → z = n) := by
  have hbound := natCast_lt_roundingBound h
  rcases Nat.eq_zero_or_pos n with rfl | hn
  · exact ⟨0, .zero, by norm_num, fun _ => Nat.cast_zero.symm⟩
  · have hone : (1 : ℚ) ≤ n := by exact_mod_cast hn
    have hofNat : Float.ofNat n = Float.ofScientific n false 0 := rfl
    rw [hofNat, Float.ofScientific]
    by_cases hsmall : n < 2 ^ 53
    · -- up to 53 bits the number is exact, and so is the product with one
      rw [dif_pos ⟨hsmall, by decide⟩]
      obtain ⟨z, hz, hround⟩ := amount_model_ofNat hn hbound
      obtain rfl := hround.eq_natCast hsmall.le
      have hword : n.toUInt64.toNat = n := by
        exact UInt64.toNat_ofNat_of_lt' h
      have hfirst : Amount n.toUInt64.toFloat n := by
        have hmodel : n.toUInt64.toFloat = .ofModel (.ofNat n.toUInt64.toNat) := rfl
        rwa [hmodel, hword]
      obtain ⟨z, hz, hround⟩ := amount_mul hfirst amount_one (.inr hone) (by simpa using hbound)
      rw [mul_one] at hround
      obtain rfl := hround.eq_natCast hsmall.le
      refine ⟨n, hz, ?_, fun _ => rfl⟩
      rw [sub_self, abs_zero]
      positivity
    · rw [dif_neg fun h => hsmall h.1]
      obtain ⟨z, hz, hround⟩ := amount_ofScientific (k := 0) hn (by decide) (by simpa using hbound)
      rw [pow_zero, mul_one] at hround
      exact ⟨z, hz, hround.abs_sub_le hone, fun h => absurd h hsmall⟩

/-- The powers of ten up to the 22nd are doubles. -/
theorem tenTo_exact : ∀ k < 23, (tenTo k).isFinite = true ∧ signBit (tenTo k) = false ∧
    (Magnitude.ofFloat (tenTo k)).significand * (Magnitude.ofFloat (tenTo k)).step 0 =
      10 ^ k * (Magnitude.ofFloat (tenTo k)).cell 0 := by
  decide +kernel

/-- **A power of ten becomes a double by rounding.** -/
theorem amount_tenTo {k : Nat} (hk : k ≤ 308) :
    ∃ z, Amount (tenTo k) z ∧ |z - 10 ^ k| ≤ 10 ^ k / 2 ^ 53 ∧ (k ≤ 22 → z = 10 ^ k) := by
  have hpos : (0 : ℚ) < 10 ^ k := by positivity
  by_cases hsmall : k ≤ 22
  · obtain ⟨hfinite, hsign, hvalue⟩ := tenTo_exact k (by omega)
    have hamount := amount_of_isFinite hfinite hsign
    generalize Magnitude.ofFloat (tenTo k) = v at hvalue hamount
    have hexact : v.value = 10 ^ k := by
      have hcell : (0 : ℚ) < v.cell 0 := by exact_mod_cast v.cell_pos 0
      have hstep := v.step_mul_zpow 0
      rw [zpow_zero, mul_one] at hstep
      have hcast : (v.significand : ℚ) * v.step 0 = 10 ^ k * v.cell 0 := by exact_mod_cast hvalue
      rw [hstep] at hcast
      rw [Magnitude.value]
      refine mul_right_cancel₀ hcell.ne' ?_
      linarith
    rw [hexact] at hamount
    refine ⟨10 ^ k, hamount, ?_, fun _ => rfl⟩
    rw [sub_self, abs_zero]
    positivity
  · have hbound : ((1 : ℕ) : ℚ) * 10 ^ k < roundingBound := by
      rw [Nat.cast_one, one_mul]
      exact (pow_le_pow_right₀ (by norm_num) hk).trans_lt ten_pow_lt_roundingBound
    obtain ⟨z, hz, hround⟩ := amount_ofScientific (n := 1) (by decide) hk hbound
    rw [Nat.cast_one, one_mul] at hround
    have htenTo : tenTo k = .ofModel (.ofScientific 1 k) := by
      rw [tenTo, Float.ofScientific, dif_neg fun h => hsmall h.2]
      rfl
    rw [htenTo]
    exact ⟨z, hz, hround.abs_sub_le (one_le_pow₀ (by norm_num)), fun h => absurd h hsmall⟩

/-! ## Words -/

/-- Cutting off what follows the point leaves something of what is one at least. -/
theorem roundToInt_pos {m : Nat} {e : Int} (h : 1 ≤ (m : ℚ) * 2 ^ e) :
    0 < roundToInt .positive m e := by
  obtain ⟨up, hup⟩ : ∃ up, up = (e - 0).toNat := ⟨_, rfl⟩
  obtain ⟨down, hdown⟩ : ∃ down, down = (0 - (e - up)).toNat := ⟨_, rfl⟩
  obtain ⟨em, hem⟩ :
      ∃ em, em = ExtendedMantissa.ofMantissaAndAccuracy (m <<< up) .exact >>> down := ⟨_, rfl⟩
  have heq : roundToInt .positive m e = em.mantissa := by
    rw [hem, hdown, hup]
    rfl
  have hvalue : ((m <<< up : ℕ) : ℚ) / 2 ^ down = m * 2 ^ e := by
    rw [Nat.shiftLeft_eq, Nat.cast_mul, Nat.cast_pow, Nat.cast_ofNat, div_eq_mul_inv, mul_assoc,
      ← zpow_natCast, ← zpow_natCast, ← zpow_neg, ← zpow_add₀ (by norm_num)]
    congr 2
    omega
  have hexact : Denotes (m <<< up) ((m <<< up : ℕ) : ℚ) .exact := rfl
  have hbounds := (hexact.ofMantissaAndAccuracy.shiftRight down).bounds
  rw [hvalue, ← hem] at hbounds
  have hpos : 1 ≤ em.mantissa := le_of_natCast_lt (by push_cast; linarith)
  omega

/-- A double that is one at least becomes a word that is not zero; beyond all words it
becomes the last one. -/
theorem toUInt64_pos {x : Float} {q : ℚ} (h : Amount x q) (hq : 1 ≤ q) :
    0 < x.toUInt64.toNat := by
  show 0 < (UnpackedFloat.toUInt64 x.toModel.unpack).toNat
  rw [Amount] at h
  generalize x.toModel.unpack = u at h
  cases h with
  | zero => norm_num at hq
  | @finite m e hm hc =>
    have hpos := roundToInt_pos hq
    rw [UnpackedFloat.toUInt64, UnpackedFloat.toInt, UInt64.ofNatClamp]
    split
    · rw [UInt64.toNat_ofNatLT]
      omega
    · rw [UInt64.toNat_ofNatLT]
      decide

end SymbolicRegression
