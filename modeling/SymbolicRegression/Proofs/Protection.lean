/-
# Protected operators

An operator is protected when it takes finite values to finite values.  The standard
operators are, each by a guard of its own: a check of the result, a floor under the
argument, an interval that the argument is moved into, or a threshold for the divisor.
What is needed of the elementary functions is little: that those without a guard of
their own are finite where the mathematical functions are defined.

* `isFinite_sqrt` : the roots of finite doubles;
* `isFinite_larger`, `le_larger`, `toUnit_mem` : what the guards make of an argument;
* `Elementary.Tame` : what is assumed of the elementary functions;
* `OperatorSet.IsProtected` : the sets of protected operators;
* `isProtected_standard` : **the standard set is one of them.**
-/
import SymbolicRegression.Operator.Standard
import SymbolicRegression.Proofs.Mean

namespace SymbolicRegression

open Float.Model Float.Model.UnpackedFloat

/-! ## Square roots -/

/-- What is left of a number after its root says where the exact root lies. -/
theorem denotes_sqrt (n : Nat) :
    ∃ y : ℚ, Denotes (Nat.sqrt n) y
      (if n - Nat.sqrt n * Nat.sqrt n = 0 then .exact
        else .inexact (if n - Nat.sqrt n * Nat.sqrt n ≤ Nat.sqrt n then .lt else .gt)) := by
  split
  · exact ⟨Nat.sqrt n, rfl⟩
  · split
    · refine ⟨Nat.sqrt n + 1 / 4, ?_⟩
      rw [Denotes]
      constructor <;> linarith
    · refine ⟨Nat.sqrt n + 3 / 4, ?_⟩
      rw [Denotes]
      constructor <;> linarith

/-- The exponent that a root is worked out with. -/
def rootExponent (m : Nat) (e : Int) : Int :=
  min (e / 2) (max (((m.log2 : Int) + 1 + e + 1) / 2 - 53) (-1074))

section Root

variable {m shift : Nat} {e : Int}

/-- A root is the integer root of the shifted significand, with a remark on what is left. -/
theorem sqrtCore_eq (hshift : (shift : Int) = e - 2 * rootExponent m e) :
    sqrtCore .binary64 m e = (Nat.sqrt (m <<< shift), rootExponent m e,
      if m <<< shift - Nat.sqrt (m <<< shift) * Nat.sqrt (m <<< shift) = 0 then .exact
        else .inexact (if m <<< shift - Nat.sqrt (m <<< shift) * Nat.sqrt (m <<< shift) ≤
          Nat.sqrt (m <<< shift) then .lt else .gt)) := by
  have hbits : (Format.binary64.mantissaBits : Int) = 53 := rfl
  have hleast : Format.binary64.minExponent = -1074 := rfl
  have htarget : min (e.ediv 2)
      (Format.binary64.targetExponent ((totalExponent m e + 1).ediv 2)) = rootExponent m e := by
    rw [rootExponent, Format.targetExponent, totalExponent, hbits, hleast]
    rfl
  have hamount : (e - 2 * rootExponent m e).toNat = shift := by omega
  simp only [sqrtCore, htarget, hamount]

/-- Bits enough are worked out. -/
theorem root_bits (hm : 0 < m) (hshift : (shift : Int) = e - 2 * rootExponent m e) :
    rootExponent m e ≤ -1074 ∨ 52 ≤ (Nat.sqrt (m <<< shift)).log2 := by
  rw [rootExponent] at hshift ⊢
  refine (le_or_gt _ (-1074)).imp_right fun hlarge => ?_
  have hbits : 104 ≤ m.log2 + shift := by omega
  have hroot : 2 ^ 52 ≤ Nat.sqrt (m <<< shift) := by
    rw [Nat.le_sqrt, Nat.shiftLeft_eq]
    calc 2 ^ 52 * 2 ^ 52 = 2 ^ 104 := by norm_num
      _ ≤ 2 ^ (m.log2 + shift) := Nat.pow_le_pow_right (by decide) hbits
      _ = 2 ^ m.log2 * 2 ^ shift := Nat.pow_add _ _ _
      _ ≤ m * 2 ^ shift := Nat.mul_le_mul_right _ (Nat.log2_self_le hm.ne')
  exact (Nat.le_log2 (by omega)).2 hroot

/-- A root is far from the greatest doubles. -/
theorem root_lt (hlt : m < 2 ^ 53) (he : e ≤ 971)
    (hshift : (shift : Int) = e - 2 * rootExponent m e) :
    ((Nat.sqrt (m <<< shift) : ℚ) + 1) * 2 ^ rootExponent m e < roundingBound := by
  obtain ⟨k, hk⟩ : ∃ k, k = (54 + shift) / 2 := ⟨_, rfl⟩
  have hroot : Nat.sqrt (m <<< shift) < 2 ^ k := by
    rw [Nat.sqrt_lt, Nat.shiftLeft_eq, ← Nat.pow_add]
    calc m * 2 ^ shift < 2 ^ 53 * 2 ^ shift := Nat.mul_lt_mul_of_pos_right hlt (by positivity)
      _ = 2 ^ (53 + shift) := (Nat.pow_add _ _ _).symm
      _ ≤ 2 ^ (k + k) := Nat.pow_le_pow_right (by decide) (by omega)
  have hcast : (Nat.sqrt (m <<< shift) : ℚ) + 1 ≤ 2 ^ (k : ℤ) := by exact_mod_cast hroot
  calc ((Nat.sqrt (m <<< shift) : ℚ) + 1) * 2 ^ rootExponent m e
      ≤ 2 ^ (k : ℤ) * 2 ^ rootExponent m e := mul_le_mul_of_nonneg_right hcast (by positivity)
    _ = 2 ^ (k + rootExponent m e) := (zpow_add₀ (by norm_num) _ _).symm
    _ ≤ 2 ^ (1023 : ℤ) := zpow_le_zpow_right₀ (by norm_num) (by omega)
    _ < roundingBound := two_pow_lt_roundingBound

end Root

/-- **Roots are rounded.**  What is said of the root here is only that it is a double. -/
theorem exists_amount_sqrt {m : Nat} {e : Int} (hm : 0 < m) (hc : Canonical m e) (he : e ≤ 971) :
    ∃ z, Amount (.ofModel (.pack (UnpackedFloat.sqrt .binary64 (.finite .positive m e hm)))) z := by
  obtain ⟨shift, hshift⟩ : ∃ shift : Nat, (shift : Int) = e - 2 * rootExponent m e :=
    ⟨(e - 2 * rootExponent m e).toNat, by rw [rootExponent]; omega⟩
  obtain ⟨y, hy⟩ := denotes_sqrt (m <<< shift)
  have hbits := root_bits hm hshift
  have hlt := root_lt hc.lt he hshift
  have hbound : y * 2 ^ rootExponent m e < roundingBound :=
    (mul_lt_mul_of_pos_right hy.bounds.2 (by positivity)).trans hlt
  have hvalue : y * 2 ^ rootExponent m e / 2 ^ rootExponent m e = y :=
    mul_div_cancel_right₀ _ (by positivity)
  rw [← hvalue] at hy
  obtain ⟨z, hz, -⟩ := amount_roundWithAccuracy hy hbits hbound
  simp only [UnpackedFloat.sqrt, sqrtCore_eq hshift]
  exact ⟨z, hz⟩

/-- The root of a finite double that is not negative is finite. -/
theorem isFinite_sqrt {x : Float} (h : x.isFinite = true) (hle : 0.0 ≤ x) :
    x.sqrt.isFinite = true := by
  obtain ⟨hc, he⟩ := Magnitude.canonical_of_isFinite h
  have hunpack := unpack_eq_of_isFinite h
  rw [le_iff, unpack_zero] at hle
  have hsqrt : x.sqrt = .ofModel (.pack (UnpackedFloat.sqrt .binary64 x.toModel.unpack)) := rfl
  rw [hunpack] at hle hsqrt
  rw [hsqrt]
  generalize signOf (signBit x) = s at hle ⊢
  split
  · cases s <;> rfl
  · rename_i hne
    rw [dif_neg hne] at hle
    cases s with
    | negative => cases hle
    | positive =>
      obtain ⟨z, hz⟩ := exists_amount_sqrt (Nat.pos_of_ne_zero hne) hc he
      exact isFinite_of_amount hz

/-! ## The order of finite doubles -/

theorem swap_compare (e e' : Int) (m m' : Nat) :
    ((compare e e').then (compare m m')).swap = (compare e' e).then (compare m' m) := by
  rw [Ordering.swap_then, ← Std.OrientedOrd.eq_swap, ← Std.OrientedOrd.eq_swap]

/-- Numbers can be compared, in either order. -/
theorem exists_compare {u v : UnpackedFloat} (hu : u.isFinite = true) (hv : v.isFinite = true) :
    ∃ o, u.compare v = some o ∧ v.compare u = some o.swap := by
  cases u with
  | notANumber => cases hu
  | infinity s => cases hu
  | zero s =>
    cases v with
    | notANumber => cases hv
    | infinity t => cases hv
    | zero t => exact ⟨.eq, rfl, rfl⟩
    | finite t m' e' hm' =>
      cases t with
      | positive => exact ⟨.lt, rfl, rfl⟩
      | negative => exact ⟨.gt, rfl, rfl⟩
  | finite s m e hm =>
    cases v with
    | notANumber => cases hv
    | infinity t => cases hv
    | zero t =>
      cases s with
      | positive => exact ⟨.gt, rfl, rfl⟩
      | negative => exact ⟨.lt, rfl, rfl⟩
    | finite t m' e' hm' =>
      cases s with
      | positive =>
        cases t with
        | positive =>
          refine ⟨_, rfl, ?_⟩
          rw [swap_compare]
          rfl
        | negative => exact ⟨.gt, rfl, rfl⟩
      | negative =>
        cases t with
        | positive => exact ⟨.lt, rfl, rfl⟩
        | negative =>
          refine ⟨_, rfl, ?_⟩
          rw [swap_compare]
          rfl

/-- Of two finite doubles one is not above the other. -/
theorem le_of_not_lt_float {x y : Float} (hx : x.isFinite = true) (hy : y.isFinite = true)
    (h : ¬ x < y) : y ≤ x := by
  obtain ⟨o, hxy, hyx⟩ := exists_compare (u := x.toModel.unpack) (v := y.toModel.unpack) hx hy
  rw [lt_iff, UnpackedFloat.lt, hxy, beq_iff_eq, Option.some_inj] at h
  rw [le_iff, UnpackedFloat.le, hyx, Option.any_some]
  cases o with
  | lt => exact absurd rfl h
  | eq => rfl
  | gt => rfl

theorem le_refl_float {x : Float} (h : x.isFinite = true) : x ≤ x := by
  by_cases hlt : x < x
  · exact le_of_lt_float hlt
  · exact le_of_not_lt_float h h hlt
/-! ## Guards -/

section Guards

variable {x y : Float}

/-- What is not finite is replaced by zero. -/
theorem isFinite_orZero (x : Float) : (orZero x).isFinite = true := by
  unfold orZero
  split
  · assumption
  · decide

/-- The larger of two finite values is finite. -/
theorem isFinite_larger (hx : x.isFinite = true) (hy : y.isFinite = true) :
    (larger x y).isFinite = true := by
  unfold larger
  split
  · exact hx
  · exact hy

/-- The smaller of two finite values is finite. -/
theorem isFinite_smaller (hx : x.isFinite = true) (hy : y.isFinite = true) :
    (smaller x y).isFinite = true := by
  unfold smaller
  split
  · exact hx
  · exact hy

/-- The larger of two values is not below the second one. -/
theorem le_larger (x : Float) (hy : y.isFinite = true) : y ≤ larger x y := by
  unfold larger
  split
  · rename_i h
    rw [isNaN_of_isFinite hy, Bool.false_or, decide_eq_true_iff] at h
    exact le_of_lt_float h
  · exact le_refl_float hy

/-- **A finite argument is moved into the interval from minus one to one.** -/
theorem toUnit_mem (hx : x.isFinite = true) : -1.0 ≤ toUnit x ∧ toUnit x ≤ 1.0 := by
  unfold toUnit
  split
  · exact ⟨by decide +kernel, by decide +kernel⟩
  · rename_i hlow
    split
    · exact ⟨by decide +kernel, by decide +kernel⟩
    · rename_i hhigh
      exact ⟨le_of_not_lt_float hx (by decide) hlow, le_of_not_lt_float (by decide) hx hhigh⟩

end Guards

/-! ## Protected operators -/

/-- An operator that takes finite values to finite values. -/
def UnaryOperator.IsProtected (op : UnaryOperator) : Prop :=
  ∀ x, x.isFinite = true → (op.call x).isFinite = true

/-- An operator that takes finite values to finite values. -/
def BinaryOperator.IsProtected (op : BinaryOperator) : Prop :=
  ∀ x y, x.isFinite = true → y.isFinite = true → (op.call x y).isFinite = true

/-- A set of operators that take finite values to finite values. -/
structure OperatorSet.IsProtected (ops : OperatorSet) : Prop where
  unary : ∀ op ∈ ops.unary, op.IsProtected
  binary : ∀ op ∈ ops.binary, op.IsProtected

/-- What is assumed of the elementary functions: those that the standard operators use
without a look at the result are finite on the finite values that they are given. -/
structure Elementary.Tame (lib : Elementary) : Prop where
  sin : ∀ x, x.isFinite = true → (lib.sin x).isFinite = true
  cos : ∀ x, x.isFinite = true → (lib.cos x).isFinite = true
  arctan : ∀ x, x.isFinite = true → (lib.arctan x).isFinite = true
  tanh : ∀ x, x.isFinite = true → (lib.tanh x).isFinite = true
  cbrt : ∀ x, x.isFinite = true → (lib.cbrt x).isFinite = true
  arcsin : ∀ x, -1.0 ≤ x → x ≤ 1.0 → (lib.arcsin x).isFinite = true
  arccos : ∀ x, -1.0 ≤ x → x ≤ 1.0 → (lib.arccos x).isFinite = true
  log : ∀ x, x.isFinite = true → tiny ≤ x → (lib.log x).isFinite = true
  log2 : ∀ x, x.isFinite = true → tiny ≤ x → (lib.log2 x).isFinite = true
  log10 : ∀ x, x.isFinite = true → tiny ≤ x → (lib.log10 x).isFinite = true

namespace Kernel

variable {lib : Elementary} {x y : Float}

/-- Division is checked twice, the divisor before it and the quotient after it. -/
theorem isFinite_divide (x y : Float) : (divide x y).isFinite = true := by
  unfold divide
  split
  · exact isFinite_orZero _
  · decide

/-- A protected remainder is finite, whatever is divided. -/
theorem isFinite_modulo (lib : Elementary) (x y : Float) : (modulo lib x y).isFinite = true := by
  unfold modulo
  split
  · exact isFinite_orZero _
  · decide

/-- A root is taken of nothing negative. -/
theorem isFinite_protectedSqrt (hx : x.isFinite = true) : (sqrt x).isFinite = true := by
  have hzero : (0.0 : Float).isFinite = true := by decide
  exact isFinite_sqrt (isFinite_larger hx hzero) (le_larger x hzero)

/-- A logarithm is taken of nothing below the least argument. -/
theorem isFinite_of_floor {f : Float → Float}
    (hf : ∀ x, x.isFinite = true → tiny ≤ x → (f x).isFinite = true) (hx : x.isFinite = true) :
    (f (larger x tiny)).isFinite = true := by
  have htiny : tiny.isFinite = true := by decide +kernel
  exact hf _ (isFinite_larger hx htiny) (le_larger x htiny)

/-- Inverse sines and cosines are taken of what is one. -/
theorem isFinite_of_toUnit {f : Float → Float}
    (hf : ∀ x, -1.0 ≤ x → x ≤ 1.0 → (f x).isFinite = true) (hx : x.isFinite = true) :
    (f (toUnit x)).isFinite = true := by
  obtain ⟨hlow, hhigh⟩ := toUnit_mem hx
  exact hf _ hlow hhigh

end Kernel

section Standard

variable {lib : Elementary}

/-- **The standard operators with one operand are protected.** -/
theorem isProtected_of_mem_standardUnary (hlib : lib.Tame) :
    ∀ op ∈ standardUnary lib, op.IsProtected := by
  intro op hop x hx
  simp only [standardUnary, List.mem_cons, List.not_mem_nil, or_false] at hop
  rcases hop with rfl | rfl | rfl | rfl | rfl | rfl | rfl | rfl | rfl | rfl | rfl | rfl | rfl |
    rfl | rfl | rfl | rfl | rfl | rfl
  · exact isFinite_neg hx
  · exact isFinite_abs hx
  · exact Kernel.isFinite_protectedSqrt hx
  · exact isFinite_orZero _
  · exact Kernel.isFinite_of_floor hlib.log hx
  · exact Kernel.isFinite_of_floor hlib.log2 hx
  · exact Kernel.isFinite_of_floor hlib.log10 hx
  · exact hlib.sin x hx
  · exact hlib.cos x hx
  · exact isFinite_orZero _
  · exact Kernel.isFinite_of_toUnit hlib.arcsin hx
  · exact Kernel.isFinite_of_toUnit hlib.arccos hx
  · exact hlib.arctan x hx
  · exact isFinite_orZero _
  · exact isFinite_orZero _
  · exact hlib.tanh x hx
  · exact isFinite_orZero _
  · exact hlib.cbrt x hx
  · exact Kernel.isFinite_divide _ _

/-- **The standard operators with two operands are protected**, whatever the library. -/
theorem isProtected_of_mem_standardBinary (lib : Elementary) :
    ∀ op ∈ standardBinary lib, op.IsProtected := by
  intro op hop x y hx hy
  simp only [standardBinary, List.mem_cons, List.not_mem_nil, or_false] at hop
  rcases hop with rfl | rfl | rfl | rfl | rfl | rfl | rfl | rfl
  · exact isFinite_orZero _
  · exact isFinite_orZero _
  · exact isFinite_orZero _
  · exact Kernel.isFinite_divide _ _
  · exact isFinite_orZero _
  · exact isFinite_larger hx hy
  · exact isFinite_smaller hx hy
  · exact Kernel.isFinite_modulo lib _ _

theorem isProtected_standard (hlib : lib.Tame) : (OperatorSet.standard lib).IsProtected where
  unary := isProtected_of_mem_standardUnary hlib
  binary := isProtected_of_mem_standardBinary lib

end Standard

end SymbolicRegression
