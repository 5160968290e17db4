/-
# Sums, counts and means

What a running sum of doubles and its quotient by the number of summands keep of the
summands: their sign, and that they are finite.

* `total_cons` : the sum starts with the first summand;
* `signed_total` : summands of one sign have a sum of that sign;
* `amount_or_infinity_ofNat` : a count becomes a double by rounding;
* `Signed.isFinite_div_ofNat_iff` : dividing by a count does not matter for being finite.
-/
import SymbolicRegression.Batch
import SymbolicRegression.Proofs.SignedAmount

namespace SymbolicRegression

open Float.Model Float.Model.UnpackedFloat

/-! ## Sums -/

/-- The sum starts with the first summand. -/
theorem total_cons (x : Float) (values : List Float) :
    total (x :: values) = values.foldl (· + ·) x := by
  rw [total, List.foldl_cons, neg_zero_add]

theorem signed_foldl_add {s : Sign} {values : List Float} (h : ∀ v ∈ values, Signed s v)
    {start : Float} (hstart : Signed s start) : Signed s (values.foldl (· + ·) start) := by
  induction values generalizing start with
  | nil => exact hstart
  | cons v values ih =>
    rw [List.foldl_cons]
    apply ih
    · intro w hw
      exact h w (List.mem_cons_of_mem _ hw)
    · exact hstart.add (h v List.mem_cons_self)

/-- **Summands of one sign have a sum of that sign.** -/
theorem signed_total {s : Sign} {values : List Float} (hne : values ≠ [])
    (h : ∀ v ∈ values, Signed s v) : Signed s (total values) := by
  obtain ⟨v, rest, rfl⟩ := List.exists_cons_of_ne_nil hne
  rw [total_cons]
  apply signed_foldl_add
  · intro w hw
    exact h w (List.mem_cons_of_mem _ hw)
  · exact h v List.mem_cons_self

/-- A sum of zeros is zero. -/
theorem total_eq_zero {values : List Float} (hne : values ≠ []) (h : ∀ v ∈ values, v = 0.0) :
    total values = 0.0 := by
  obtain ⟨v, rest, rfl⟩ := List.exists_cons_of_ne_nil hne
  have hrest : ∀ w ∈ rest, w = 0.0 := fun w hw => h w (List.mem_cons_of_mem _ hw)
  rw [total_cons, h v List.mem_cons_self]
  clear h hne
  induction rest with
  | nil => rfl
  | cons w rest ih =>
    have hsum : (0.0 : Float) + 0.0 = 0.0 := by decide +kernel
    rw [List.foldl_cons, hrest w List.mem_cons_self, hsum]
    apply ih
    intro w hw
    exact hrest w (List.mem_cons_of_mem _ hw)

/-! ## Counts -/

/-- **A count becomes a double by rounding**, or, from 309 digits on, an infinity. -/
theorem amount_or_infinity_ofNat {n : Nat} (hn : 0 < n) :
    (∃ z, Amount (Float.ofNat n) z ∧ IsRounding n z) ∨
      wordBound ≤ n ∧ (Float.ofNat n).toModel.unpack = .infinity .positive := by
  by_cases hsmall : n < 2 ^ 53
  · obtain ⟨z, hz, -, hexact⟩ := amount_ofNat (hsmall.trans (by decide))
    obtain rfl := hexact hsmall
    exact .inl ⟨n, hz, .of_hasAmount hz⟩
  · obtain ⟨z, hround, hz⟩ := hasAmount_ofScientific (k := 0) hn (by decide)
    rw [pow_zero, mul_one] at hround
    have hofNat : Float.ofNat n = .ofModel (.ofScientific n 0) := by
      show Float.ofScientific n false 0 = _
      rw [Float.ofScientific, dif_neg fun h => hsmall h.1]
      rfl
    have hunpack : (Float.ofNat n).toModel.unpack = UnpackedFloat.unpack .binary64
        (UnpackedFloat.pack .binary64 (UnpackedFloat.ofScientific .binary64 n (0 : ℕ))) := by
      rw [hofNat]
      rfl
    rcases lt_or_ge z (2 ^ (1024 : ℤ)) with hkept | hlarge
    · refine .inl ⟨z, ?_, hround⟩
      rwa [Amount, hunpack, unpack_pack hz hkept]
    · refine .inr ⟨?_, hunpack.trans (unpack_pack_of_le hz hlarge)⟩
      by_contra hword
      have hbound := hround.lt_of_lt_roundingBound (natCast_lt_roundingBound (not_le.1 hword))
      exact absurd hlarge (not_le.2 hbound)

/-- A count is one at least, and so is its double. -/
theorem one_le_of_isRounding {n : Nat} {z : ℚ} (hn : 0 < n) (h : IsRounding n z) : 1 ≤ z := by
  apply h.one_le
  exact_mod_cast hn

/-- The counts from one on have no minus sign. -/
theorem signed_ofNat {n : Nat} (hn : 0 < n) : Signed .positive (Float.ofNat n) := by
  rcases amount_or_infinity_ofNat hn with ⟨z, hz, -⟩ | ⟨-, hinfinity⟩
  · exact HasAmount.hasSign hz
  · rw [Signed, hinfinity]
    exact .infinity

/-! ## Quotients by a count -/

/-- A double without a minus sign that is finite is an amount below the infinities. -/
theorem Signed.exists_amount {x : Float} (h : Signed .positive x) (hfinite : x.isFinite = true) :
    ∃ p, Amount x p ∧ p < roundingBound := by
  have hx := signedAmount_of_isFinite hfinite
  exact ⟨_, hx.amount h, hx.lt_roundingBound⟩

section Quotient

variable {x : Float} {n : Nat}

/-- Dividing zero by a count gives zero. -/
theorem zero_div_ofNat (hn : 0 < n) : 0.0 / Float.ofNat n = 0.0 := by
  have hzero : UnpackedFloat.div .binary64 (.zero .positive) (Float.ofNat n).toModel.unpack =
      .zero .positive := by
    rcases amount_or_infinity_ofNat hn with ⟨z, hz, hround⟩ | ⟨-, hinfinity⟩
    · have hone := one_le_of_isRounding hn hround
      rw [Amount] at hz
      generalize (Float.ofNat n).toModel.unpack = u at hz
      cases hz with
      | zero => norm_num at hone
      | finite hm hc => rfl
    · rw [hinfinity]
      rfl
  show Float.ofModel (.pack (UnpackedFloat.div .binary64 _ (Float.ofNat n).toModel.unpack)) = _
  rw [unpack_zero, hzero]
  rfl

/-- What is not finite does not become so by dividing it by a count. -/
theorem isFinite_of_isFinite_div_ofNat (hn : 0 < n) (h : (x / Float.ofNat n).isFinite = true) :
    x.isFinite = true := by
  have hquotient : (UnpackedFloat.div .binary64 x.toModel.unpack
      (Float.ofNat n).toModel.unpack).isFinite = true := isFinite_of_isFinite_unpack_pack h
  have hcount := signed_ofNat hn
  show x.toModel.unpack.isFinite = true
  rw [Signed] at hcount
  generalize x.toModel.unpack = u at hquotient ⊢
  generalize (Float.ofNat n).toModel.unpack = v at hcount hquotient
  cases u with
  | notANumber => cases hcount <;> cases hquotient
  | infinity s => cases hcount <;> cases hquotient
  | zero s => rfl
  | finite s m e hm => rfl

/-- **Dividing by a count does not matter for being finite.** -/
theorem Signed.isFinite_div_ofNat_iff (hx : Signed .positive x) (hn : 0 < n) :
    (x / Float.ofNat n).isFinite = true ↔ x.isFinite = true := by
  constructor
  · exact isFinite_of_isFinite_div_ofNat hn
  · intro h
    obtain ⟨p, hp, hbound⟩ := hx.exists_amount h
    rcases amount_or_infinity_ofNat hn with ⟨z, hz, hround⟩ | ⟨-, hinfinity⟩
    · have hone := one_le_of_isRounding hn hround
      have hle : p / z ≤ p := div_le_self (HasAmount.nonneg hp) hone
      obtain ⟨q, hq, -⟩ := amount_div hp hz (by linarith) (hle.trans_lt hbound)
      exact isFinite_of_amount hq
    · have hzero : UnpackedFloat.div .binary64 x.toModel.unpack (Float.ofNat n).toModel.unpack =
          .zero .positive := by
        rw [hinfinity]
        rw [Amount] at hp
        generalize x.toModel.unpack = u at hp
        cases hp <;> rfl
      have hquotient : x / Float.ofNat n = 0.0 := by
        show Float.ofModel (.pack (UnpackedFloat.div .binary64 _ _)) = _
        rw [hzero]
        rfl
      rw [hquotient]
      rfl

/-- A finite quotient by a count has no minus sign, if the dividend has none. -/
theorem Signed.div_ofNat (hx : Signed .positive x) (hn : 0 < n)
    (h : (x / Float.ofNat n).isFinite = true) : Signed .positive (x / Float.ofNat n) :=
  hx.div (signed_ofNat hn) (isNaN_of_isFinite h)

end Quotient

end SymbolicRegression
