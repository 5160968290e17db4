/-
# The values of doubles

What a double that is finite and not negative stands for, told from its bits.

* `unpack_eq_of_isFinite` : the bits of a double are those of its magnitude and its sign;
* `unpack_pack` : packing a double into bits loses nothing;
* `Amount` : the value of a double that is finite and not negative;
* `HasAmount.compare_eq` : doubles are compared by their values;
* `isProbability_of_amount`, `value_le_one_of_isProbability` : the values of probabilities.
-/
import SymbolicRegression.Decimal.Magnitude
import SymbolicRegression.Proofs.Rounding
import SymbolicRegression.Settings

namespace SymbolicRegression

open Float.Model Float.Model.UnpackedFloat

/-! ## The bits of a double -/

/-- The implicit bit weighs as much as all fractions together. -/
theorem toNat_one_append (m : BitVec 52) : (1#1 ++ m).toNat = 2 ^ 52 + m.toNat := by
  rw [BitVec.toNat_append, ← Nat.shiftLeft_add_eq_or_of_lt m.isLt]
  rfl

/-- Only infinities and NaNs have the greatest exponent. -/
theorem ofNat_ne_neg_one {b : Nat} (hb : b < 2047) : BitVec.ofNat 11 b ≠ -1#11 := by
  intro h
  have hval := congrArg BitVec.toNat h
  rw [BitVec.toNat_ofNat, Nat.mod_eq_of_lt (by omega)] at hval
  norm_num at hval
  omega

/-- What the components of a positive double stand for.  With the exponent field zero it is the
fraction alone, and otherwise the fraction behind the implicit bit. -/
theorem unpack_packComponents {b m : Nat} (hb : b < 2047) (hm : m < 2 ^ 52) (hpos : b ≠ 0 ∨ m ≠ 0) :
    UnpackedFloat.unpack .binary64
        (packComponents .binary64 .positive (BitVec.ofNat 11 b) (BitVec.ofNat 52 m)) =
      if h : b = 0 then .finite .positive m (-1074) (by omega)
      else .finite .positive (2 ^ 52 + m) (b - 1075) (by omega) := by
  have hbn : (BitVec.ofNat 11 b).toNat = b := by
    rw [BitVec.toNat_ofNat, Nat.mod_eq_of_lt (by omega)]
  have hmn : (BitVec.ofNat 52 m).toNat = m := by
    rw [BitVec.toNat_ofNat, Nat.mod_eq_of_lt hm]
  have hzero (w n : Nat) (hn : (BitVec.ofNat w n).toNat = n) : BitVec.ofNat w n = 0#w ↔ n = 0 := by
    rw [← BitVec.toNat_inj, hn, BitVec.toNat_zero]
  unfold UnpackedFloat.unpack
  simp only [unpackExponent_packComponents, unpackMantissa_packComponents,
    unpackSign_packComponents]
  rw [if_neg (ofNat_ne_neg_one hb)]
  by_cases h : b = 0
  · have hm0 : m ≠ 0 := hpos.resolve_left (by omega)
    rw [if_pos ((hzero _ _ hbn).2 h), dif_neg (mt (hzero _ _ hmn).1 hm0), dif_pos h]
    simp only [hmn, h]
    rfl
  · rw [if_neg (mt (hzero _ _ hbn).1 h), dif_neg h]
    simp only [hbn, toNat_one_append, hmn]
    rfl

/-- A canonical number below the infinities has an exponent that a double can hold. -/
theorem Canonical.le_of_lt {m : Nat} {e : Int} (hc : Canonical m e)
    (h : (m : ℚ) * 2 ^ e < 2 ^ (1024 : ℤ)) : e ≤ 971 := by
  rcases hc.normal with rfl | hm
  · omega
  · have hpow : (2 : ℚ) ^ (e + 52) < 2 ^ (1024 : ℤ) := (two_pow_le_of_normal hm e).trans_lt h
    have hexp := (zpow_lt_zpow_iff_right₀ (by norm_num : (1 : ℚ) < 2)).1 hpow
    omega

/-- The components that a finite number is packed into, if its exponent is in range. -/
theorem pack_finite (s : Sign) {m : Nat} {e : Int} (hm : 0 < m) (he : -1074 ≤ e)
    (he' : e ≤ 971) :
    UnpackedFloat.pack .binary64 (.finite s m e hm) =
      if m.log2 + 1 = 53 then
        packComponents .binary64 s (BitVec.ofNat 11 (e + 1075).toNat) (BitVec.ofNat 52 m)
      else packComponents .binary64 s 0#11 (BitVec.ofNat 52 m) := by
  have hbias : (e + (Format.exponentBias .binary64 : Nat) + (52 : Nat)).toNat =
      (e + 1075).toNat := by
    congr 1
    rw [show Format.exponentBias .binary64 = 1023 from rfl]
    omega
  rw [UnpackedFloat.pack]
  simp only [hbias]
  rw [if_neg (by omega)]
  rfl

/-- A number below the infinities is packed without loss. -/
theorem unpack_pack {u : UnpackedFloat} {y : ℚ} (h : HasAmount u y) (hy : y < 2 ^ (1024 : ℤ)) :
    UnpackedFloat.unpack .binary64 (UnpackedFloat.pack .binary64 u) = u := by
  cases h with
  | zero => rfl
  | @finite m e hm hc =>
    have he := hc.ge
    have he' := hc.le_of_lt hy
    rw [pack_finite .positive hm he he']
    by_cases hnormal : 2 ^ 52 ≤ m
    · have hlog : m.log2 + 1 = 53 := by
        have := (Nat.log2_eq_iff hm.ne').2 ⟨hnormal, hc.lt⟩
        omega
      have hlt := hc.lt
      have hmod : BitVec.ofNat 52 m = BitVec.ofNat 52 (m - 2 ^ 52) := by
        rw [← BitVec.toNat_inj, BitVec.toNat_ofNat, BitVec.toNat_ofNat]
        omega
      have hmantissa : 2 ^ 52 + (m - 2 ^ 52) = m := by omega
      have hexponent : ((e + 1075).toNat : Int) - 1075 = e := by omega
      rw [if_pos hlog, hmod, unpack_packComponents (by omega) (by omega) (.inl (by omega)),
        dif_neg (by omega)]
      simp only [hmantissa, hexponent]
    · have hlog : m.log2 + 1 ≠ 53 := by
        have := (Nat.log2_lt hm.ne').2 (Nat.lt_of_not_le hnormal)
        omega
      obtain rfl : e = -1074 := hc.normal.resolve_right hnormal
      rw [if_neg hlog, unpack_packComponents (by omega) (by omega) (.inr (by omega)), dif_pos rfl]

/-- What is beyond all doubles is packed to an infinity. -/
theorem unpack_pack_of_le {u : UnpackedFloat} {y : ℚ} (h : HasAmount u y)
    (hy : 2 ^ (1024 : ℤ) ≤ y) :
    UnpackedFloat.unpack .binary64 (UnpackedFloat.pack .binary64 u) = .infinity .positive := by
  cases h with
  | zero => exact absurd hy (not_le.2 (by positivity))
  | @finite m e hm hc =>
    have hpow : (2 : ℚ) ^ (1024 : ℤ) < 2 ^ (e + 53) := hy.trans_lt hc.lt_two_pow
    have hexp := (zpow_lt_zpow_iff_right₀ (by norm_num : (1 : ℚ) < 2)).1 hpow
    have hbiased : 2 ^ 11 ≤ (e + (Format.exponentBias .binary64 : Nat) + (52 : Nat)).toNat + 1 := by
      rw [show Format.exponentBias .binary64 = 1023 from rfl]
      omega
    rw [UnpackedFloat.pack]
    simp only
    rw [if_pos hbiased]
    rfl

section Bits
variable (b : BitVec Format.binary64.numBits)

/-- The fraction of a double is in its low 52 bits. -/
theorem toNat_unpackMantissa : (unpackMantissa b).toNat = b.toNat % 2 ^ 52 := by
  simp [unpackMantissa, BitVec.extractLsb_toNat]

/-- The exponent field of a double is in the 11 bits above its fraction. -/
theorem toNat_unpackExponent : (unpackExponent b).toNat = b.toNat / 2 ^ 52 % 2 ^ 11 := by
  simp [unpackExponent, BitVec.extractLsb_toNat, Nat.shiftRight_eq_div_pow]

/-- The sign of a double is in its highest bit. -/
theorem toNat_unpackSign : (unpackSign b).toNat = b.toNat / 2 ^ 63 % 2 := by
  simp [unpackSign, BitVec.extractLsb_toNat, Nat.shiftRight_eq_div_pow]

end Bits

/-- The sign that a sign bit tells. -/
def signOf (negative : Bool) : Sign := if negative then .negative else .positive

/-- The value of a magnitude. -/
def Magnitude.value (v : Magnitude) : ℚ := v.significand * 2 ^ v.exponent

/-- A power with a positive exponent, or else the reciprocal of one with a negative
exponent. -/
theorem zpow_toNat {b : ℚ} (hb : b ≠ 0) (n : Int) : b ^ n.toNat = b ^ (-n).toNat * b ^ n := by
  rw [← zpow_natCast, ← zpow_natCast, ← zpow_add₀ hb]
  congr 1
  omega

/-- Steps and cells of a grid, by the powers that they stand for. -/
theorem Magnitude.step_mul_zpow (v : Magnitude) (grid : Int) :
    (v.step grid : ℚ) * 10 ^ grid = v.cell grid * 2 ^ v.exponent := by
  have hten := zpow_toNat (by norm_num : (10 : ℚ) ≠ 0) grid
  have htwo := zpow_toNat (by norm_num : (2 : ℚ) ≠ 0) v.exponent
  simp only [step, cell, Nat.pow_eq]
  push_cast
  rw [hten, htwo]
  ring

/-- Bits whose exponent field is not the greatest stand for a canonical number in range. -/
theorem Magnitude.canonical_ofBits {bits : Nat} (h : bits / 2 ^ 52 % 2 ^ 11 < 2047) :
    Canonical (ofBits bits).significand (ofBits bits).exponent ∧ (ofBits bits).exponent ≤ 971 := by
  have hfraction : bits % 2 ^ 52 < 2 ^ 52 := Nat.mod_lt _ (by positivity)
  simp only [ofBits, Nat.pow_eq]
  split
  · exact ⟨⟨by simp only; omega, by simp only; omega, .inl rfl⟩, by simp only; omega⟩
  · refine ⟨⟨?_, ?_, .inr ?_⟩, ?_⟩ <;> simp only <;> omega

/-- The sign that is unpacked is the one that the sign bit tells. -/
theorem ofBitVec_unpackSign {x : Float} {b : BitVec Format.binary64.numBits}
    (hbits : x.toBits.toNat = b.toNat) : Sign.ofBitVec (unpackSign b) = signOf (signBit x) := by
  have hlt : b.toNat < 2 ^ 64 := b.isLt
  have hsign := toNat_unpackSign b
  rw [Sign.ofBitVec, signOf, signBit, hbits, Nat.pow_eq]
  by_cases h : 2 ^ 63 ≤ b.toNat
  · have hne : unpackSign b ≠ 0#1 := by
      intro hzero
      rw [hzero] at hsign
      simp only [BitVec.toNat_zero] at hsign
      omega
    rw [if_neg hne, if_pos (decide_eq_true h)]
  · have heq : unpackSign b = 0#1 := by
      rw [← BitVec.toNat_inj, hsign, BitVec.toNat_zero]
      omega
    rw [if_pos heq, if_neg (by simpa using h)]

section Finite

variable {b : BitVec Format.binary64.numBits}

/-- The exponent field of a finite double is not the greatest. -/
theorem unpackExponent_ne_of_isFinite
    (h : (UnpackedFloat.unpack .binary64 b).isFinite = true) : unpackExponent b ≠ -1#11 := by
  intro heq
  rw [UnpackedFloat.unpack, if_pos heq] at h
  split at h <;> cases h

theorem exponent_lt_of_ne (h : unpackExponent b ≠ -1#11) : b.toNat / 2 ^ 52 % 2 ^ 11 < 2047 := by
  have hne : (unpackExponent b).toNat ≠ 2047 := fun heq => h (BitVec.eq_of_toNat_eq heq)
  have hexponent := toNat_unpackExponent b
  omega

/-- What bits stand for, by their magnitude. -/
theorem unpack_eq_of_ne (h : unpackExponent b ≠ -1#11) :
    UnpackedFloat.unpack .binary64 b =
      if hm : (Magnitude.ofBits b.toNat).significand = 0 then .zero (.ofBitVec (unpackSign b))
      else .finite (.ofBitVec (unpackSign b)) (Magnitude.ofBits b.toNat).significand
        (Magnitude.ofBits b.toNat).exponent (Nat.pos_of_ne_zero hm) := by
  have hexponent := toNat_unpackExponent b
  have hmantissa := toNat_unpackMantissa b
  have hzero (w : Nat) (v : BitVec w) : v = 0#w ↔ v.toNat = 0 := by
    rw [← BitVec.toNat_inj, BitVec.toNat_zero]
  rw [UnpackedFloat.unpack, if_neg h, Magnitude.ofBits]
  simp only [Nat.pow_eq]
  by_cases hexp : b.toNat / 2 ^ 52 % 2 ^ 11 = 0
  · rw [if_pos ((hzero _ _).2 (hexponent.trans hexp))]
    simp only [hexp, if_true]
    by_cases hman : b.toNat % 2 ^ 52 = 0
    · rw [dif_pos ((hzero _ _).2 (hmantissa.trans hman)), dif_pos hman]
    · rw [dif_neg fun h => hman (hmantissa.symm.trans ((hzero _ _).1 h)), dif_neg hman]
      simp only [hexponent, hmantissa, hexp]
      rfl
  · rw [if_neg fun h => hexp (hexponent.symm.trans ((hzero _ _).1 h))]
    simp only [hexp, if_false]
    rw [dif_neg (by omega)]
    simp only [hexponent, toNat_one_append, hmantissa]
    rfl

end Finite

/-- The bits of a double. -/
theorem exists_bits (x : Float) : ∃ b : BitVec Format.binary64.numBits,
    x.toBits.toNat = b.toNat ∧ x.toModel.unpack = UnpackedFloat.unpack .binary64 b :=
  ⟨x.toModel.toBits.toBitVec, rfl, rfl⟩

/-- **The bits of a double are those of its magnitude and its sign.** -/
theorem unpack_eq_of_isFinite {x : Float} (h : x.isFinite = true) :
    x.toModel.unpack =
      if hm : (Magnitude.ofFloat x).significand = 0 then .zero (signOf (signBit x))
      else .finite (signOf (signBit x)) (Magnitude.ofFloat x).significand
        (Magnitude.ofFloat x).exponent (Nat.pos_of_ne_zero hm) := by
  have hfinite : x.toModel.unpack.isFinite = true := h
  obtain ⟨b, hbits, hunpack⟩ := exists_bits x
  rw [hunpack] at hfinite
  rw [hunpack, unpack_eq_of_ne (unpackExponent_ne_of_isFinite hfinite), ofBitVec_unpackSign hbits,
    Magnitude.ofFloat, hbits]

/-- The magnitude of a finite double is canonical and below the infinities. -/
theorem Magnitude.canonical_of_isFinite {x : Float} (h : x.isFinite = true) :
    Canonical (ofFloat x).significand (ofFloat x).exponent ∧ (ofFloat x).exponent ≤ 971 := by
  have hfinite : x.toModel.unpack.isFinite = true := h
  obtain ⟨b, hbits, hunpack⟩ := exists_bits x
  rw [hunpack] at hfinite
  refine canonical_ofBits ?_
  rw [hbits]
  exact exponent_lt_of_ne (unpackExponent_ne_of_isFinite hfinite)

/-! ## Amounts -/

/-- The value of a double that is finite and not negative. -/
def Amount (x : Float) (q : ℚ) : Prop := HasAmount x.toModel.unpack q

/-- A number below the infinities is packed into a double of its value. -/
theorem amount_pack {u : UnpackedFloat} {y : ℚ} (h : HasAmount u y) (hy : y < 2 ^ (1024 : ℤ)) :
    Amount (.ofModel (.pack u)) y := by
  show HasAmount (UnpackedFloat.unpack .binary64 (UnpackedFloat.pack .binary64 u)) y
  rwa [unpack_pack h hy]

/-- Zero is packed into a double of value zero. -/
theorem amount_zero : Amount (.ofModel (.pack (.zero .positive))) 0 :=
  amount_pack .zero (by positivity)

/-- A double that has a value is finite. -/
theorem isFinite_of_amount {x : Float} {q : ℚ} (h : Amount x q) : x.isFinite = true := by
  show x.toModel.unpack.isFinite = true
  rw [Amount] at h
  generalize x.toModel.unpack = u at h
  cases h <;> rfl

/-- The value of a finite double without a sign is that of its magnitude. -/
theorem amount_of_isFinite {x : Float} (h : x.isFinite = true) (hsign : signBit x = false) :
    Amount x (Magnitude.ofFloat x).value := by
  have hunpack := unpack_eq_of_isFinite h
  rw [Amount, hunpack, hsign, Magnitude.value]
  by_cases hzero : (Magnitude.ofFloat x).significand = 0
  · rw [dif_pos hzero, hzero, Nat.cast_zero, zero_mul]
    exact .zero
  · rw [dif_neg hzero]
    exact .finite _ (Magnitude.canonical_of_isFinite h).1

theorem unpack_zero : (0.0 : Float).toModel.unpack = .zero .positive := rfl

/-- A double that has a value is not an infinity. -/
theorem isInf_of_amount {x : Float} {q : ℚ} (h : Amount x q) : x.isInf = false := by
  show x.toModel.unpack.isInf = false
  rw [Amount] at h
  generalize x.toModel.unpack = u at h
  cases h <;> rfl

/-! ## The order -/

/-- These values are not negative. -/
theorem HasAmount.nonneg {u : UnpackedFloat} {q : ℚ} (h : HasAmount u q) : 0 ≤ q := by
  cases h with
  | zero => exact le_refl 0
  | finite => positivity

/-- A greater exponent outweighs every mantissa. -/
theorem Canonical.lt_of_exponent_lt {m m' : Nat} {e e' : Int} (hc : Canonical m e)
    (hc' : Canonical m' e') (h : e < e') : (m : ℚ) * 2 ^ e < m' * 2 ^ e' := by
  have hge := hc.ge
  have hnormal : 2 ^ 52 ≤ m' := hc'.normal.resolve_left (by omega)
  calc (m : ℚ) * 2 ^ e < 2 ^ (e + 53) := hc.lt_two_pow
    _ ≤ 2 ^ (e' + 52) := zpow_le_zpow_right₀ (by norm_num) (by omega)
    _ ≤ m' * 2 ^ e' := two_pow_le_of_normal hnormal e'

/-- Canonical numbers are compared by their exponents first, and only then by their
significands. -/
theorem Canonical.compare_eq {m m' : Nat} {e e' : Int} (hc : Canonical m e)
    (hc' : Canonical m' e') : (compare e e').then (compare m m') =
      compare ((m : ℚ) * 2 ^ e) (m' * 2 ^ e') := by
  rcases lt_trichotomy e e' with hlt | rfl | hgt
  · rw [compare_lt_iff_lt.2 hlt, compare_lt_iff_lt.2 (hc.lt_of_exponent_lt hc' hlt)]
    rfl
  · have hpos : (0 : ℚ) < 2 ^ e := by positivity
    rw [compare_eq_iff_eq.2 rfl, Ordering.eq_then]
    rcases lt_trichotomy m m' with hlt | rfl | hgt
    · have hcast : (m : ℚ) < m' := by exact_mod_cast hlt
      rw [compare_lt_iff_lt.2 hlt, compare_lt_iff_lt.2 (mul_lt_mul_of_pos_right hcast hpos)]
    · rw [compare_eq_iff_eq.2 rfl, compare_eq_iff_eq.2 rfl]
    · have hcast : (m' : ℚ) < m := by exact_mod_cast hgt
      rw [compare_gt_iff_gt.2 hgt, compare_gt_iff_gt.2 (mul_lt_mul_of_pos_right hcast hpos)]
  · rw [compare_gt_iff_gt.2 hgt, compare_gt_iff_gt.2 (hc'.lt_of_exponent_lt hc hgt)]
    rfl

/-- **Doubles are compared by their values.** -/
theorem HasAmount.compare_eq {u v : UnpackedFloat} {p q : ℚ} (hu : HasAmount u p)
    (hv : HasAmount v q) : u.compare v = some (compare p q) := by
  cases hu with
  | zero =>
    cases hv with
    | zero => rfl
    | finite hm hc =>
      rw [compare_lt_iff_lt.2 (by positivity)]
      rfl
  | @finite m e hm hc =>
    cases hv with
    | zero =>
      have hpos : (0 : ℚ) < m * 2 ^ e := by positivity
      rw [compare_gt_iff_gt.2 hpos]
      rfl
    | finite hm' hc' =>
      rw [← hc.compare_eq hc']
      rfl

/-- The order of doubles is that of what they are unpacked to. -/
theorem le_iff {x y : Float} :
    x ≤ y ↔ UnpackedFloat.le x.toModel.unpack y.toModel.unpack = true := by
  show decide (x.toModel ≤ y.toModel) = true ↔ _
  rw [decide_eq_true_iff]
  exact Iff.rfl

/-- The strict order of doubles is that of what they are unpacked to. -/
theorem lt_iff {x y : Float} :
    x < y ↔ UnpackedFloat.lt x.toModel.unpack y.toModel.unpack = true := by
  show decide (x.toModel < y.toModel) = true ↔ _
  rw [decide_eq_true_iff]
  exact Iff.rfl

/-- What is less is at most as great. -/
theorem le_of_lt_float {x y : Float} (h : x < y) : x ≤ y := by
  rw [lt_iff, UnpackedFloat.lt, beq_iff_eq] at h
  rw [le_iff, UnpackedFloat.le, h]
  rfl

/-- What lies between finite doubles is finite. -/
theorem isFinite_of_le_of_le {x y z : Float} {p q : ℚ} (hx : Amount x p) (hz : Amount z q)
    (hlow : x ≤ y) (hhigh : y ≤ z) : y.isFinite = true := by
  show y.toModel.unpack.isFinite = true
  rw [le_iff] at hlow hhigh
  rw [Amount] at hx hz
  generalize x.toModel.unpack = u at hx hlow
  generalize y.toModel.unpack = v at hlow hhigh
  generalize z.toModel.unpack = w at hz hhigh
  match v with
  | .zero _ | .finite _ _ _ _ => rfl
  | .notANumber => cases hx <;> cases hlow
  | .infinity .positive => cases hz <;> cases hhigh
  | .infinity .negative => cases hx <;> cases hlow

/-- What is above a positive double has its sign. -/
theorem signBit_eq_false_of_le {x y : Float} {p : ℚ} (hx : Amount x p) (hp : 0 < p)
    (hlow : x ≤ y) (hfinite : y.isFinite = true) : signBit y = false := by
  rw [Bool.eq_false_iff]
  intro hsign
  rw [le_iff, unpack_eq_of_isFinite hfinite, hsign] at hlow
  rw [Amount] at hx
  generalize x.toModel.unpack = u at hx hlow
  cases hx with
  | zero => exact absurd hp (lt_irrefl 0)
  | finite hm hc =>
    split at hlow
    · cases hlow
    · cases hlow

section Compare

variable {x y : Float} {p q : ℚ} (hx : Amount x p) (hy : Amount y q)

include hx hy

/-- Doubles are ordered as their values are. -/
theorem amount_le_iff : x ≤ y ↔ p ≤ q := by
  rw [le_iff, UnpackedFloat.le, HasAmount.compare_eq hx hy, Option.any_some,
    Ordering.isLE_iff_ne_gt]
  exact compare_le_iff_le

/-- Doubles are strictly ordered as their values are. -/
theorem amount_lt_iff : x < y ↔ p < q := by
  rw [lt_iff, UnpackedFloat.lt, HasAmount.compare_eq hx hy, beq_iff_eq, Option.some_inj,
    compare_lt_iff_lt]

/-- Doubles are found equal when their values are equal. -/
theorem amount_beq_iff : (x == y) = true ↔ p = q := by
  show UnpackedFloat.beq x.toModel.unpack y.toModel.unpack = true ↔ _
  rw [UnpackedFloat.beq, HasAmount.compare_eq hx hy, beq_iff_eq, Option.some_inj,
    compare_eq_iff_eq]

end Compare

/-! ## Probabilities -/

/-- One is canonical with the significand `2 ^ 52`. -/
theorem canonical_one : Canonical (2 ^ 52) (-52) := ⟨by decide, by decide, .inr (Nat.le_refl _)⟩

/-- The double one has the value one. -/
theorem amount_one : Amount 1.0 1 := by
  have h : Amount 1.0 (((2 ^ 52 : ℕ) : ℚ) * 2 ^ (-52 : ℤ)) := .finite (by decide) canonical_one
  norm_num at h
  exact h

/-- Which doubles are at most one. -/
theorem Canonical.le_one_iff {m : Nat} {e : Int} (hc : Canonical m e) :
    (m : ℚ) * 2 ^ e ≤ 1 ↔ e < -52 ∨ e = -52 ∧ m ≤ 2 ^ 52 := by
  have hone : ((2 ^ 52 : ℕ) : ℚ) * 2 ^ (-52 : ℤ) = 1 := by norm_num
  rw [← hone, ← compare_le_iff_le, ← hc.compare_eq canonical_one, ne_eq,
    ← Ordering.isLE_iff_ne_gt]
  rcases lt_trichotomy e (-52) with hlt | rfl | hgt
  · rw [compare_lt_iff_lt.2 hlt]
    simp [hlt]
  · rw [compare_eq_iff_eq.2 rfl, Ordering.eq_then, Nat.isLE_compare]
    simp
  · rw [compare_gt_iff_gt.2 hgt]
    simp
    omega

/-- A probability lies between the doubles zero and one. -/
theorem isProbability_iff {x : Float} : Settings.isProbability x = true ↔ 0.0 ≤ x ∧ x ≤ 1.0 := by
  rw [Settings.isProbability, Bool.and_eq_true, decide_eq_true_iff, decide_eq_true_iff]

/-- A double of a value up to one is a probability. -/
theorem isProbability_of_amount {x : Float} {q : ℚ} (h : Amount x q) (hq : q ≤ 1) :
    Settings.isProbability x = true :=
  isProbability_iff.2
    ⟨(amount_le_iff amount_zero h).2 (HasAmount.nonneg h), (amount_le_iff h amount_one).2 hq⟩

/-- A probability is at most one, and only minus zero has the sign bit set. -/
theorem value_le_one_of_isProbability {x : Float} (h : Settings.isProbability x = true) :
    x.isFinite = true ∧ (Magnitude.ofFloat x).value ≤ 1 ∧
      (signBit x = true → (Magnitude.ofFloat x).significand = 0) := by
  obtain ⟨hlow, hhigh⟩ := isProbability_iff.1 h
  have hfinite := isFinite_of_le_of_le amount_zero amount_one hlow hhigh
  by_cases hzero : (Magnitude.ofFloat x).significand = 0
  · refine ⟨hfinite, ?_, fun _ => hzero⟩
    rw [Magnitude.value, hzero, Nat.cast_zero, zero_mul]
    exact zero_le_one
  · cases hsign : signBit x with
    | true =>
      rw [le_iff, unpack_eq_of_isFinite hfinite, dif_neg hzero, hsign] at hlow
      cases hlow
    | false =>
      have hamount := amount_of_isFinite hfinite hsign
      refine ⟨hfinite, (amount_le_iff hamount amount_one).1 hhigh, ?_⟩
      intro h
      cases h

end SymbolicRegression
