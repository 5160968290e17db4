/-
# Signs and magnitudes

A finite double is a sign and a magnitude.  Signs that agree do not matter to sums,
nor does the sign of a dividend to its quotient by a count, so what rounding does to
magnitudes it does to the numbers themselves.

* `doubleValue`, `IsDouble` : the number that a double stands for;
* `SignedAmount` : a double has a given sign and a given magnitude;
* `isFinite_neg`, `isFinite_abs` : a finite double stays finite with another sign;
* `SignedAmount.unique`, `SignedAmount.ext` : sign and magnitude determine the double;
* `SignedAmount.add`, `SignedAmount.add_exact` : sums of doubles of one sign;
* `SignedAmount.div` : quotients by what is one at least.
-/
import SymbolicRegression.Proofs.Sign

namespace SymbolicRegression

open Float.Model Float.Model.UnpackedFloat

/-! ## Magnitudes determine doubles -/

section

variable {u v : UnpackedFloat} {p q : ℚ}

/-- Doubles without a minus sign are the same if their values are. -/
theorem HasAmount.eq_of_eq (hu : HasAmount u p) (hv : HasAmount v q) (h : p = q) : u = v := by
  cases hu with
  | zero =>
    cases hv with
    | zero => rfl
    | @finite m e hm hc =>
      have hpos : (0 : ℚ) < m * 2 ^ e := by positivity
      exact absurd h hpos.ne
  | @finite m e hm hc =>
    cases hv with
    | zero =>
      have hpos : (0 : ℚ) < m * 2 ^ e := by positivity
      exact absurd h hpos.ne'
    | @finite m' e' hm' hc' =>
      -- equal numbers have the same exponent, and then the same mantissa
      have hcompare := hc.compare_eq hc'
      rw [h, compare_eq_iff_eq.2 rfl, Ordering.then_eq_eq] at hcompare
      obtain ⟨he, hmantissa⟩ := hcompare
      obtain rfl := compare_eq_iff_eq.1 he
      obtain rfl := compare_eq_iff_eq.1 hmantissa
      rfl

/-- What has an amount is positive already. -/
theorem HasAmount.withSign_positive (hu : HasAmount u q) : withSign .positive u = u :=
  (hasSign_iff.1 hu.hasSign).2

/-- An amount is a whole number of least units. -/
theorem HasAmount.exists_units (hu : HasAmount u q) : ∃ k : ℕ, q = k * 2 ^ (-1074 : ℤ) := by
  cases hu with
  | zero => exact ⟨0, by norm_num⟩
  | @finite m e hm hc =>
    have hge := hc.ge
    refine ⟨m * 2 ^ (e + 1074).toNat, ?_⟩
    rw [Nat.cast_mul, Nat.cast_pow, Nat.cast_ofNat, mul_assoc, ← zpow_natCast,
      ← zpow_add₀ (by norm_num)]
    congr 2
    omega

end

/-! ## The numbers that doubles stand for -/

/-- The factor that a sign stands for. -/
def signFactor : Sign → ℚ
  | .positive => 1
  | .negative => -1

theorem abs_signFactor_mul (s : Sign) (q : ℚ) : |signFactor s * q| = |q| := by
  cases s with
  | positive => rw [signFactor, one_mul]
  | negative => rw [signFactor, neg_one_mul, abs_neg]

/-- The number that a finite double stands for. -/
def doubleValue (x : Float) : ℚ := signFactor (signOf (signBit x)) * (Magnitude.ofFloat x).value

/-- A number that a double stands for. -/
def IsDouble (r : ℚ) : Prop := ∃ x : Float, x.isFinite = true ∧ doubleValue x = r

/-- A number that the magnitude of a double stands for. -/
def IsMagnitude (q : ℚ) : Prop := ∃ u, HasAmount u q ∧ q < roundingBound

/-- The double is finite, with the given sign and the given magnitude. -/
def SignedAmount (s : Sign) (x : Float) (q : ℚ) : Prop :=
  ∃ u, HasAmount u q ∧ x.toModel.unpack = withSign s u

section

variable {s t : Sign} {x y : Float} {p q : ℚ}

/-- **A finite double is a sign and a magnitude.** -/
theorem signedAmount_of_isFinite (h : x.isFinite = true) :
    SignedAmount (signOf (signBit x)) x (Magnitude.ofFloat x).value := by
  obtain ⟨hc, -⟩ := Magnitude.canonical_of_isFinite h
  have hunpack := unpack_eq_of_isFinite h
  rw [Magnitude.value]
  by_cases hzero : (Magnitude.ofFloat x).significand = 0
  · rw [dif_pos hzero] at hunpack
    rw [hzero, Nat.cast_zero, zero_mul]
    exact ⟨_, .zero, hunpack⟩
  · rw [dif_neg hzero] at hunpack
    exact ⟨_, .finite (Nat.pos_of_ne_zero hzero) hc, hunpack⟩

/-- The magnitude of a finite double is below what is rounded to an infinity. -/
theorem Magnitude.value_lt_roundingBound (h : x.isFinite = true) :
    (Magnitude.ofFloat x).value < roundingBound := by
  obtain ⟨hc, hle⟩ := Magnitude.canonical_of_isFinite h
  have hm : ((Magnitude.ofFloat x).significand : ℚ) ≤ 2 ^ 53 - 1 := by
    rw [le_sub_iff_add_le]
    exact_mod_cast hc.lt
  calc (Magnitude.ofFloat x).value ≤ (2 ^ 53 - 1) * 2 ^ (Magnitude.ofFloat x).exponent :=
        mul_le_mul_of_nonneg_right hm (by positivity)
    _ ≤ (2 ^ 53 - 1) * 2 ^ (971 : ℤ) :=
        mul_le_mul_of_nonneg_left (zpow_le_zpow_right₀ (by norm_num) hle) (by norm_num)
    _ < roundingBound := mul_lt_mul_of_pos_right (by norm_num) (by positivity)

namespace SignedAmount

theorem nonneg (h : SignedAmount s x q) : 0 ≤ q := by
  obtain ⟨u, hu, -⟩ := h
  exact hu.nonneg

theorem isFinite (h : SignedAmount s x q) : x.isFinite = true := by
  obtain ⟨u, hu, hunpack⟩ := h
  show x.toModel.unpack.isFinite = true
  rw [hunpack]
  cases hu <;> rfl

/-- Sign and magnitude are those of the double. -/
theorem unique (h : SignedAmount s x p) (h' : SignedAmount t x q) : s = t ∧ p = q := by
  obtain ⟨u, hu, hunpack⟩ := h
  obtain ⟨v, hv, hunpack'⟩ := h'
  have hsame : withSign s u = withSign t v := hunpack.symm.trans hunpack'
  cases hu with
  | zero =>
    cases hv with
    | zero =>
      cases hsame
      exact ⟨rfl, rfl⟩
    | finite hm' hc' => cases hsame
  | finite hm hc =>
    cases hv with
    | zero => cases hsame
    | finite hm' hc' =>
      cases hsame
      exact ⟨rfl, rfl⟩

/-- **Sign and magnitude determine the double.** -/
theorem ext (h : SignedAmount s x q) (h' : SignedAmount s y q) : x = y := by
  obtain ⟨u, hu, hunpack⟩ := h
  obtain ⟨v, hv, hunpack'⟩ := h'
  apply float_ext
  rw [hunpack, hunpack', hu.eq_of_eq hv rfl]

theorem exists_units (h : SignedAmount s x q) : ∃ k : ℕ, q = k * 2 ^ (-1074 : ℤ) := by
  obtain ⟨u, hu, -⟩ := h
  exact hu.exists_units

theorem lt_roundingBound (h : SignedAmount s x q) : q < roundingBound := by
  have hfinite := h.isFinite
  rw [(h.unique (signedAmount_of_isFinite hfinite)).2]
  exact Magnitude.value_lt_roundingBound hfinite

/-- The number that a double stands for, from its sign and its magnitude. -/
theorem doubleValue_eq (h : SignedAmount s x q) : doubleValue x = signFactor s * q := by
  obtain ⟨hs, hq⟩ := h.unique (signedAmount_of_isFinite h.isFinite)
  rw [doubleValue, hs, hq]

/-- What has no minus sign is an amount. -/
theorem amount (h : SignedAmount s x q) (hs : Signed .positive x) : Amount x q := by
  obtain ⟨u, hu, hunpack⟩ := h
  rw [Signed, hunpack] at hs
  rw [Amount, hunpack]
  cases hu with
  | zero =>
    cases hs
    exact .zero
  | finite hm hc =>
    cases hs
    exact .finite hm hc

/-- Packing a number below the infinities with a sign. -/
theorem pack (s : Sign) {u : UnpackedFloat} (hu : HasAmount u q) (hq : q < 2 ^ (1024 : ℤ)) :
    SignedAmount s (.ofModel (.pack (withSign s u))) q := by
  refine ⟨u, hu, ?_⟩
  show UnpackedFloat.unpack .binary64 (UnpackedFloat.pack .binary64 (withSign s u)) = _
  rw [unpack_pack_withSign, unpack_pack hu hq]

end SignedAmount

/-- A finite double stays finite with another sign. -/
theorem isFinite_pack_withSign (h : x.isFinite = true) (t : Sign) :
    (Float.ofModel (.pack (withSign t x.toModel.unpack))).isFinite = true := by
  have hx := signedAmount_of_isFinite h
  have hbound := hx.lt_roundingBound
  obtain ⟨u, hu, hunpack⟩ := hx
  have hsign (s : Sign) : withSign t (withSign s u) = withSign t u := by
    cases u <;> rfl
  rw [hunpack, hsign]
  exact (SignedAmount.pack t hu ((IsRounding.of_hasAmount hu).lt_of_lt_roundingBound hbound)).isFinite

/-- The opposite of a finite double is finite. -/
theorem isFinite_neg (h : x.isFinite = true) : (-x).isFinite = true := by
  obtain ⟨t, ht⟩ : ∃ t, x.toModel.unpack.neg = withSign t x.toModel.unpack := by
    generalize x.toModel.unpack = u
    cases u with
    | notANumber => exact ⟨.positive, rfl⟩
    | infinity s => exact ⟨_, rfl⟩
    | zero s => exact ⟨_, rfl⟩
    | finite s m e hm => exact ⟨_, rfl⟩
  show (Float.ofModel (.pack x.toModel.unpack.neg)).isFinite = true
  rw [ht]
  exact isFinite_pack_withSign h t

/-- The absolute value of a finite double is finite. -/
theorem isFinite_abs (h : x.isFinite = true) : x.abs.isFinite = true := by
  have habs : x.toModel.unpack.abs = withSign .positive x.toModel.unpack := by
    generalize x.toModel.unpack = u
    cases u <;> rfl
  show (Float.ofModel (.pack x.toModel.unpack.abs)).isFinite = true
  rw [habs]
  exact isFinite_pack_withSign h .positive

theorem IsDouble.isMagnitude_abs {r : ℚ} (h : IsDouble r) : IsMagnitude |r| := by
  obtain ⟨x, hfinite, rfl⟩ := h
  have hx := signedAmount_of_isFinite hfinite
  rw [doubleValue, abs_signFactor_mul, abs_of_nonneg hx.nonneg]
  have hbound := hx.lt_roundingBound
  obtain ⟨u, hu, -⟩ := hx
  exact ⟨u, hu, hbound⟩

/-- A count of 53 bits is its own double. -/
theorem signedAmount_ofNat {n : ℕ} (hn : n < 2 ^ 53) :
    SignedAmount .positive (Float.ofNat n) n := by
  obtain ⟨z, hz, -, hexact⟩ := amount_ofNat (hn.trans (by decide))
  obtain rfl := hexact hn
  exact ⟨_, hz, (HasAmount.withSign_positive hz).symm⟩

theorem doubleValue_ofNat {n : ℕ} (hn : n < 2 ^ 53) : doubleValue (Float.ofNat n) = n := by
  rw [(signedAmount_ofNat hn).doubleValue_eq, signFactor, one_mul]

/-- Whole numbers of 53 bits are doubles. -/
theorem isDouble_natCast {n : ℕ} (hn : n < 2 ^ 53) : IsDouble n :=
  ⟨Float.ofNat n, (signedAmount_ofNat hn).isFinite, doubleValue_ofNat hn⟩

end

/-! ## Sums of one sign -/

/-- Rounding puts the sign on last. -/
theorem roundWithAccuracy_sign (f : Format) (s : Sign) (m : Nat) (e : Int) (a : Accuracy) :
    roundWithAccuracy f s m e a = withSign s (roundWithAccuracy f .positive m e a) := by
  unfold roundWithAccuracy
  simp only
  split <;> rfl

theorem normalize_neg {m : Nat} (hm : 0 < m) (e : Int) :
    UnpackedFloat.normalize .binary64 (-(m : Int)) e .positive =
      withSign .negative (UnpackedFloat.normalize .binary64 m e .positive) := by
  have hlt : compare (-(m : Int)) 0 = .lt := Int.compare_eq_lt.2 (by omega)
  have hgt : compare (m : Int) 0 = .gt := Int.compare_eq_gt.2 (by omega)
  rw [UnpackedFloat.normalize, UnpackedFloat.normalize, hlt, hgt, Int.neg_neg]
  exact roundWithAccuracy_sign _ _ _ _ _

/-- A common sign does not matter to a sum. -/
theorem add_withSign (s : Sign) {u v : UnpackedFloat} {p q : ℚ} (hu : HasAmount u p)
    (hv : HasAmount v q) : UnpackedFloat.add .binary64 (withSign s u) (withSign s v) =
      withSign s (UnpackedFloat.add .binary64 u v) := by
  cases s with
  | positive =>
    rw [hu.withSign_positive, hv.withSign_positive]
    exact (hasSign_iff.1 (hu.hasSign.add hv.hasSign)).2.symm
  | negative =>
    cases hu with
    | zero =>
      cases hv with
      | zero => rfl
      | finite hm' hc' => rfl
    | @finite m e hm hc =>
      cases hv with
      | zero => rfl
      | @finite m' e' hm' hc' =>
        -- the mantissas are added as integers, here as the opposites of what they are
        have hpos := shiftLeft_add_shiftLeft_pos hm m' (e - min e e').toNat (e' - min e e').toNat
        have hsum := normalize_neg hpos (min e e')
        rw [Nat.cast_add, Int.neg_add] at hsum
        exact hsum

section

variable {s t : Sign} {x y w : Float} {p q : ℚ}

theorem SignedAmount.add_eq (hx : SignedAmount s x p) (hy : SignedAmount s y q) :
    ∃ u z, IsRounding (p + q) z ∧ HasAmount u z ∧ x + y = .ofModel (.pack (withSign s u)) := by
  obtain ⟨u, hu, hunpack⟩ := hx
  obtain ⟨v, hv, hunpack'⟩ := hy
  obtain ⟨z, hround, hz⟩ := hasAmount_add hu hv
  refine ⟨_, z, hround, hz, ?_⟩
  show Float.ofModel (.pack (UnpackedFloat.add .binary64 x.toModel.unpack y.toModel.unpack)) = _
  rw [hunpack, hunpack', add_withSign s hu hv]

/-- What is beyond all doubles is packed to an infinity, with either sign. -/
theorem SignedAmount.of_isFinite_pack {u : UnpackedFloat} (hu : HasAmount u q)
    (h : (Float.ofModel (.pack (withSign s u))).isFinite = true) :
    SignedAmount s (.ofModel (.pack (withSign s u))) q := by
  refine .pack s hu ?_
  by_contra hlarge
  have hinfinity := unpack_pack_of_le hu (not_lt.1 hlarge)
  have hfinite : (UnpackedFloat.unpack .binary64
      (UnpackedFloat.pack .binary64 (withSign s u))).isFinite = true := h
  rw [unpack_pack_withSign, hinfinity] at hfinite
  cases hfinite

/-- **A finite sum of doubles of one sign is the exact one, rounded.** -/
theorem SignedAmount.add (hx : SignedAmount s x p) (hy : SignedAmount s y q)
    (h : (x + y).isFinite = true) : ∃ z, IsRounding (p + q) z ∧ SignedAmount s (x + y) z := by
  obtain ⟨u, z, hround, hu, hsum⟩ := hx.add_eq hy
  rw [hsum] at h ⊢
  exact ⟨z, hround, .of_isFinite_pack hu h⟩

/-- A sum is exact where it need not be rounded. -/
theorem SignedAmount.add_exact (hx : SignedAmount s x p) (hy : SignedAmount s y q)
    (hexact : IsMagnitude (p + q)) : SignedAmount s (x + y) (p + q) := by
  obtain ⟨u, z, hround, hu, hsum⟩ := hx.add_eq hy
  obtain ⟨v, hv, hbound⟩ := hexact
  obtain rfl := hround.eq_of_hasAmount hv
  rw [hsum]
  exact .pack s hu (hround.lt_of_lt_roundingBound hbound)

/-! ## Quotients -/

/-- The sign of the dividend does not matter to a quotient by a positive number. -/
theorem div_withSign (s : Sign) {u v : UnpackedFloat} {p : ℚ} (hu : HasAmount u p)
    (hv : HasSign .positive v) (hne : v ≠ .zero .positive) :
    UnpackedFloat.div .binary64 (withSign s u) v =
      withSign s (UnpackedFloat.div .binary64 u v) := by
  have hsign (s : Sign) : s / .positive = s := by
    cases s <;> rfl
  cases hv with
  | zero => exact absurd rfl hne
  | infinity =>
    cases hu with
    | zero => simp only [withSign, UnpackedFloat.div, hsign]
    | finite hm hc => simp only [withSign, UnpackedFloat.div, hsign]
  | finite hm' =>
    cases hu with
    | zero => simp only [withSign, UnpackedFloat.div, hsign]
    | finite hm hc =>
      simp only [withSign, UnpackedFloat.div, hsign]
      exact roundWithAccuracy_sign _ _ _ _ _

/-- **A quotient by what is one at least is the exact one, rounded.** -/
theorem SignedAmount.div (hx : SignedAmount s x p) (hy : Amount y q) (hq : 1 ≤ q) :
    ∃ z, IsRounding (p / q) z ∧ SignedAmount s (x / y) z := by
  have hp := hx.lt_roundingBound
  obtain ⟨u, hu, hunpack⟩ := hx
  have hpos : 0 < q := by linarith
  obtain ⟨z, hround, hz⟩ := hasAmount_div hu hy hpos
  have hne : y.toModel.unpack ≠ .zero .positive := by
    intro hzero
    rw [Amount, hzero] at hy
    cases hy
    exact lt_irrefl 0 hpos
  refine ⟨z, hround, ?_⟩
  show SignedAmount s (.ofModel (.pack
    (UnpackedFloat.div .binary64 x.toModel.unpack y.toModel.unpack))) z
  rw [hunpack, div_withSign s hu (HasAmount.hasSign hy) hne]
  exact .pack s hz (hround.lt_of_lt_roundingBound ((div_le_self hu.nonneg hq).trans_lt hp))

/-- A quotient by infinity is zero. -/
theorem SignedAmount.div_infinity (hx : SignedAmount s x p)
    (hy : y.toModel.unpack = .infinity .positive) : SignedAmount s (x / y) 0 := by
  obtain ⟨u, hu, hunpack⟩ := hx
  have hzero : UnpackedFloat.div .binary64 u (.infinity .positive) = .zero .positive := by
    cases hu <;> rfl
  show SignedAmount s (.ofModel (.pack
    (UnpackedFloat.div .binary64 x.toModel.unpack y.toModel.unpack))) 0
  rw [hunpack, hy, div_withSign s hu .infinity (by nofun), hzero]
  exact .pack s .zero (by positivity)

end

end SymbolicRegression
