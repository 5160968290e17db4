/-
# The signs of doubles

Which sign a result has, and that it is not a NaN, can be told from the signs of
the operands alone, for any values, infinities included.

* `withSign` : a double with another sign;
* `HasSign`, `Signed` : a double is not a NaN and has a given sign;
* `float_pack_unpack` : unpacking a double and packing it again gives it back;
* `unpack_pack_withSign` : packing a double keeps its sign;
* `Signed.add`, `signed_mul_self`, `Signed.div` : the signs of sums, squares and quotients;
* `isNaN_sub` : a difference of finite doubles is not a NaN.
-/
import SymbolicRegression.Proofs.Arithmetic

namespace SymbolicRegression

open Float.Model Float.Model.UnpackedFloat

/-! ## Signs -/

/-- A double with a given sign in the place of its own. -/
def withSign (s : Sign) : UnpackedFloat → UnpackedFloat
  | .notANumber => .notANumber
  | .infinity _ => .infinity s
  | .zero _ => .zero s
  | .finite _ m e hm => .finite s m e hm

/-- Not a NaN, and with the given sign. -/
inductive HasSign (s : Sign) : UnpackedFloat → Prop
  | infinity : HasSign s (.infinity s)
  | zero : HasSign s (.zero s)
  | finite {m : Nat} {e : Int} (hm : 0 < m) : HasSign s (.finite s m e hm)

/-- What has a sign is not changed by giving it that sign. -/
theorem hasSign_iff {s : Sign} {u : UnpackedFloat} :
    HasSign s u ↔ u.isNaN = false ∧ withSign s u = u := by
  constructor
  · rintro (_ | _ | _) <;> exact ⟨rfl, rfl⟩
  · rintro ⟨hnan, hsign⟩
    cases u with
    | notANumber => cases hnan
    | infinity t =>
      rw [← hsign]
      exact .infinity
    | zero t =>
      rw [← hsign]
      exact .zero
    | finite t m e hm =>
      rw [← hsign]
      exact .finite hm

/-- Whatever is not a NaN has a sign. -/
theorem exists_hasSign {u : UnpackedFloat} (h : u.isNaN = false) : ∃ s, HasSign s u := by
  cases u with
  | notANumber => cases h
  | infinity s => exact ⟨s, .infinity⟩
  | zero s => exact ⟨s, .zero⟩
  | finite s m e hm => exact ⟨s, .finite hm⟩

/-- An amount has the positive sign. -/
theorem HasAmount.hasSign {u : UnpackedFloat} {q : ℚ} (h : HasAmount u q) : HasSign .positive u := by
  cases h with
  | zero => exact .zero
  | finite hm _ => exact .finite hm

/-! ## Signs and bits -/

theorem ofBitVec_toBitVec (s : Sign) : Sign.ofBitVec s.toBitVec = s := by
  cases s <;> rfl

/-- The sign component changes nothing but the sign. -/
theorem unpack_packComponents_sign (s : Sign) (b : BitVec 11) (m : BitVec 52) :
    UnpackedFloat.unpack .binary64 (packComponents .binary64 s b m) =
      withSign s (UnpackedFloat.unpack .binary64 (packComponents .binary64 .positive b m)) := by
  unfold UnpackedFloat.unpack
  simp only [unpackExponent_packComponents, unpackMantissa_packComponents,
    unpackSign_packComponents, ofBitVec_toBitVec]
  split
  · split <;> rfl
  · split
    · split <;> rfl
    · rfl

/-- **Packing a double keeps its sign.** -/
theorem unpack_pack_withSign (s : Sign) (u : UnpackedFloat) :
    UnpackedFloat.unpack .binary64 (UnpackedFloat.pack .binary64 (withSign s u)) =
      withSign s (UnpackedFloat.unpack .binary64 (UnpackedFloat.pack .binary64 u)) := by
  have hsame (t : Sign) (b : BitVec 11) (m : BitVec 52) :
      UnpackedFloat.unpack .binary64 (packComponents .binary64 s b m) =
        withSign s (UnpackedFloat.unpack .binary64 (packComponents .binary64 t b m)) := by
    rw [unpack_packComponents_sign s, unpack_packComponents_sign t]
    generalize UnpackedFloat.unpack .binary64 (packComponents .binary64 .positive b m) = v
    cases v <;> rfl
  cases u with
  | notANumber =>
    have hnan : UnpackedFloat.unpack .binary64 (UnpackedFloat.pack .binary64 .notANumber) =
        .notANumber := rfl
    rw [withSign, hnan, withSign]
  | infinity t => exact hsame t _ _
  | zero t => exact hsame t _ _
  | finite t m e hm =>
    rw [withSign, UnpackedFloat.pack, UnpackedFloat.pack]
    split
    · exact hsame t _ _
    · split
      · exact hsame t _ _
      · exact hsame t _ _

/-- Only the greatest exponent with a fraction makes a NaN. -/
theorem isNaN_unpack_packComponents {s : Sign} {b : BitVec 11} {m : BitVec 52}
    (h : b ≠ -1#11 ∨ m = 0#52) :
    (UnpackedFloat.unpack .binary64 (packComponents .binary64 s b m)).isNaN = false := by
  unfold UnpackedFloat.unpack
  simp only [unpackExponent_packComponents, unpackMantissa_packComponents]
  split
  · rename_i hb
    rw [if_pos (h.resolve_left (not_not.2 hb))]
    rfl
  · split
    · split <;> rfl
    · rfl

/-- Packing makes no NaN. -/
theorem isNaN_unpack_pack {u : UnpackedFloat} (h : u.isNaN = false) :
    (UnpackedFloat.unpack .binary64 (UnpackedFloat.pack .binary64 u)).isNaN = false := by
  cases u with
  | notANumber => cases h
  | infinity s => exact isNaN_unpack_packComponents (.inr rfl)
  | zero s => exact isNaN_unpack_packComponents (.inr rfl)
  | finite s m e hm =>
    rw [UnpackedFloat.pack]
    split
    · exact isNaN_unpack_packComponents (.inr rfl)
    · rename_i hbiased
      have hlt : (e + (Format.exponentBias .binary64 : Nat) + (52 : Nat)).toNat < 2047 := by
        simp only [Format.binary64] at hbiased ⊢
        omega
      split
      · exact isNaN_unpack_packComponents (.inl (ofNat_ne_neg_one hlt))
      · exact isNaN_unpack_packComponents (.inl (by decide))

/-- What is finite after packing was finite before. -/
theorem isFinite_of_isFinite_unpack_pack {u : UnpackedFloat} (h : (UnpackedFloat.unpack .binary64
    (UnpackedFloat.pack .binary64 u)).isFinite = true) : u.isFinite = true := by
  cases u with
  | notANumber => cases h
  | infinity s => cases s <;> cases h
  | zero s => rfl
  | finite s m e hm => rfl

/-- A sign is kept when a double is packed. -/
theorem HasSign.unpack_pack {s : Sign} {u : UnpackedFloat} (h : HasSign s u) :
    HasSign s (UnpackedFloat.unpack .binary64 (UnpackedFloat.pack .binary64 u)) := by
  obtain ⟨hnan, hsign⟩ := hasSign_iff.1 h
  refine hasSign_iff.2 ⟨isNaN_unpack_pack hnan, ?_⟩
  rw [← unpack_pack_withSign, hsign]

/-! ## Packing what was unpacked -/

section Bits

variable {b : BitVec Format.binary64.numBits}

theorem toBitVec_ofBitVec (v : BitVec 1) : (Sign.ofBitVec v).toBitVec = v := by
  revert v
  decide

/-- Bits are put together from their three parts. -/
theorem packComponents_unpack (b : BitVec Format.binary64.numBits) :
    packComponents .binary64 (.ofBitVec (unpackSign b)) (unpackExponent b) (unpackMantissa b) =
      b := by
  have hsign := toNat_unpackSign b
  have hexponent := toNat_unpackExponent b
  have hmantissa := toNat_unpackMantissa b
  have hlt : b.toNat < 2 ^ 64 := b.isLt
  rw [packComponents, toBitVec_ofBitVec]
  apply BitVec.eq_of_toNat_eq
  rw [BitVec.toNat_append, BitVec.toNat_append,
    ← Nat.shiftLeft_add_eq_or_of_lt (unpackExponent b).isLt,
    ← Nat.shiftLeft_add_eq_or_of_lt (unpackMantissa b).isLt, Nat.shiftLeft_eq, Nat.shiftLeft_eq,
    hsign, hexponent, hmantissa]
  show (b.toNat / 2 ^ 63 % 2 * 2 ^ 11 + b.toNat / 2 ^ 52 % 2 ^ 11) * 2 ^ 52 + b.toNat % 2 ^ 52 = _
  omega

/-- Packing what was unpacked from the bits of a finite double gives the bits again. -/
theorem pack_unpack_of_ne (h : unpackExponent b ≠ -1#11) :
    UnpackedFloat.pack .binary64 (UnpackedFloat.unpack .binary64 b) = b := by
  have hexponent := toNat_unpackExponent b
  have hmantissa := toNat_unpackMantissa b
  have hparts (e : BitVec 11) (m : BitVec 52) (he : e.toNat = b.toNat / 2 ^ 52 % 2 ^ 11)
      (hm : m.toNat = b.toNat % 2 ^ 52) :
      packComponents .binary64 (.ofBitVec (unpackSign b)) e m = b := by
    rw [BitVec.eq_of_toNat_eq (he.trans hexponent.symm),
      BitVec.eq_of_toNat_eq (hm.trans hmantissa.symm)]
    exact packComponents_unpack b
  have hbiased := exponent_lt_of_ne h
  have hfraction : b.toNat % 2 ^ 52 < 2 ^ 52 := Nat.mod_lt _ (by positivity)
  by_cases hzero : b.toNat / 2 ^ 52 % 2 ^ 11 = 0
  · -- a mantissa of at most 52 bits
    have hbits : Magnitude.ofBits b.toNat = ⟨b.toNat % 2 ^ 52, -1074⟩ := by
      rw [Magnitude.ofBits]
      exact if_pos hzero
    rw [unpack_eq_of_ne h, hbits]
    split
    · rename_i hnone
      exact hparts 0#11 0#52 hzero.symm hnone.symm
    · rename_i hsome
      have hlog : (b.toNat % 2 ^ 52).log2 + 1 ≠ 53 := by
        have hlt : (b.toNat % 2 ^ 52).log2 < 52 := (Nat.log2_lt hsome).2 hfraction
        omega
      rw [pack_finite _ _ (le_refl _) (by decide), if_neg hlog]
      refine hparts 0#11 _ hzero.symm ?_
      rw [BitVec.toNat_ofNat, Nat.mod_mod]
  · -- a mantissa of 53 bits, the first of which is not written
    have hbits : Magnitude.ofBits b.toNat =
        ⟨2 ^ 52 + b.toNat % 2 ^ 52, (b.toNat / 2 ^ 52 % 2 ^ 11 : ℕ) - 1075⟩ := by
      rw [Magnitude.ofBits]
      exact if_neg hzero
    have hlog : (2 ^ 52 + b.toNat % 2 ^ 52).log2 + 1 = 53 := by
      have := (Nat.log2_eq_iff (by omega)).2
        ⟨(by omega : 2 ^ 52 ≤ 2 ^ 52 + b.toNat % 2 ^ 52), (by omega)⟩
      omega
    rw [unpack_eq_of_ne h, hbits]
    simp only
    rw [dif_neg (by omega), pack_finite _ _ (by omega) (by omega), if_pos hlog]
    apply hparts
    · rw [BitVec.toNat_ofNat]
      omega
    · rw [BitVec.toNat_ofNat]
      omega

/-- **Unpacking bits and packing them again gives them back**; of the NaNs there is only one. -/
theorem pack_unpack (hvalid : Format.binary64.Valid b) :
    UnpackedFloat.pack .binary64 (UnpackedFloat.unpack .binary64 b) = b := by
  by_cases hexponent : unpackExponent b = -1#11
  · rw [UnpackedFloat.unpack, if_pos hexponent]
    split
    · rename_i hmantissa
      have hparts := packComponents_unpack b
      rwa [hexponent, hmantissa] at hparts
    · rename_i hmantissa
      exact (hvalid.eq_packedNaN hexponent hmantissa).symm
  · exact pack_unpack_of_ne hexponent

end Bits

/-! ## Signs of results -/

theorem sign_mul_self (s : Sign) : s * s = .positive := by
  cases s <;> rfl

/-- Rounding keeps the sign. -/
theorem hasSign_roundWithAccuracy (f : Format) (s : Sign) (m : Nat) (e : Int) (a : Accuracy) :
    HasSign s (roundWithAccuracy f s m e a) := by
  unfold roundWithAccuracy
  simp only
  split
  · exact .zero
  · exact .finite _

namespace HasSign

variable {s : Sign} {u v : UnpackedFloat}

/-- A sum has the sign that both summands have. -/
theorem add (hu : HasSign s u) (hv : HasSign s v) : HasSign s (.add .binary64 u v) := by
  have hself : (s == s) = true := by
    cases s <;> rfl
  cases hu with
  | infinity =>
    cases hv with
    | infinity =>
      rw [UnpackedFloat.add, if_pos hself]
      exact .infinity
    | zero => exact .infinity
    | finite hm' => exact .infinity
  | zero =>
    cases hv with
    | infinity => exact .infinity
    | zero =>
      rw [UnpackedFloat.add, if_pos hself]
      exact .zero
    | finite hm' => exact .finite hm'
  | @finite m e hm =>
    cases hv with
    | infinity => exact .infinity
    | zero => exact .finite hm
    | @finite m' e' hm' =>
      have hpos := shiftLeft_add_shiftLeft_pos hm m' (e - min e e').toNat (e' - min e e').toNat
      simp only [UnpackedFloat.add, decreaseExponent]
      generalize m <<< (e - min e e').toNat = n at hpos ⊢
      generalize m' <<< (e' - min e e').toNat = n' at hpos ⊢
      rw [UnpackedFloat.normalize]
      cases s with
      | positive =>
        have hgt : compare (Sign.positive.apply n + Sign.positive.apply n') 0 = .gt :=
          Int.compare_eq_gt.2 (by simp only [Sign.apply]; omega)
        rw [hgt]
        exact hasSign_roundWithAccuracy _ _ _ _ _
      | negative =>
        have hlt : compare (Sign.negative.apply n + Sign.negative.apply n') 0 = .lt :=
          Int.compare_eq_lt.2 (by simp only [Sign.apply]; omega)
        rw [hlt]
        exact hasSign_roundWithAccuracy _ _ _ _ _

/-- A square is not negative. -/
theorem mul_self (hu : HasSign s u) : HasSign .positive (.mul .binary64 u u) := by
  have hsign := sign_mul_self s
  cases hu with
  | infinity =>
    rw [UnpackedFloat.mul, hsign]
    exact .infinity
  | zero =>
    rw [UnpackedFloat.mul, hsign]
    exact .zero
  | finite hm =>
    rw [UnpackedFloat.mul, hsign]
    exact hasSign_roundWithAccuracy _ _ _ _ _

/-- A quotient of doubles without a minus sign has none either, unless it is a NaN. -/
theorem div (hu : HasSign .positive u) (hv : HasSign .positive v)
    (h : (UnpackedFloat.div .binary64 u v).isNaN = false) :
    HasSign .positive (.div .binary64 u v) := by
  cases hu with
  | infinity =>
    cases hv with
    | infinity => cases h
    | zero => exact .infinity
    | finite hm' => exact .infinity
  | zero =>
    cases hv with
    | infinity => exact .zero
    | zero => cases h
    | finite hm' => exact .zero
  | finite hm =>
    cases hv with
    | infinity => exact .zero
    | zero => exact .infinity
    | finite hm' => exact hasSign_roundWithAccuracy _ _ _ _ _

end HasSign

/-- A difference of numbers is not a NaN. -/
theorem isNaN_unpackedSub {u v : UnpackedFloat} (hu : u.isFinite = true) (hv : v.isFinite = true) :
    (UnpackedFloat.sub .binary64 u v).isNaN = false := by
  have hround (f : Format) (m : Int) (e : Int) :
      (UnpackedFloat.normalize f m e .positive).isNaN = false := by
    unfold UnpackedFloat.normalize
    split
    · exact (hasSign_iff.1 (hasSign_roundWithAccuracy _ _ _ _ _)).1
    · rfl
    · exact (hasSign_iff.1 (hasSign_roundWithAccuracy _ _ _ _ _)).1
  cases u with
  | notANumber => cases hu
  | infinity s => cases hu
  | zero s =>
    cases v with
    | notANumber => cases hv
    | infinity t => cases hv
    | zero t =>
      rw [UnpackedFloat.sub]
      split <;> rfl
    | finite t m e hm => rfl
  | finite s m e hm =>
    cases v with
    | notANumber => cases hv
    | infinity t => cases hv
    | zero t => rfl
    | finite t m' e' hm' => exact hround _ _ _

/-! ## Doubles -/

/-- A double is not a NaN, and it has the given sign. -/
def Signed (s : Sign) (x : Float) : Prop := HasSign s x.toModel.unpack

/-- **Unpacking a double and packing it again gives it back.** -/
theorem float_pack_unpack (x : Float) : Float.ofModel (.pack x.toModel.unpack) = x := by
  obtain ⟨⟨⟨bits⟩, hvalid⟩⟩ := x
  have hbits := pack_unpack hvalid
  simp only [Float.Model.pack, Float.Model.unpack, hbits]

/-- Doubles that unpack to the same are the same. -/
theorem float_ext {x y : Float} (h : x.toModel.unpack = y.toModel.unpack) : x = y := by
  rw [← float_pack_unpack x, h, float_pack_unpack]

/-- Adding to minus zero leaves every double as it is. -/
theorem neg_zero_add (x : Float) : -0.0 + x = x := by
  have hzero : (-0.0 : Float).toModel.unpack = .zero .negative := rfl
  have hadd (u : UnpackedFloat) : UnpackedFloat.add .binary64 (.zero .negative) u = u := by
    cases u with
    | zero s => cases s <;> rfl
    | _ => rfl
  show Float.ofModel (.pack (UnpackedFloat.add .binary64 _ x.toModel.unpack)) = x
  rw [hzero, hadd, float_pack_unpack]

section

variable {s : Sign} {x y : Float}

/-- A number with a sign is packed into a double with that sign. -/
theorem signed_pack {u : UnpackedFloat} (h : HasSign s u) : Signed s (.ofModel (.pack u)) :=
  h.unpack_pack

/-- A double with a sign is not a NaN. -/
theorem Signed.isNaN (h : Signed s x) : x.isNaN = false := (hasSign_iff.1 h).1

/-- Whatever is not a NaN has a sign. -/
theorem exists_signed (h : x.isNaN = false) : ∃ s, Signed s x := exists_hasSign h

/-- A finite double is not a NaN. -/
theorem isNaN_of_isFinite (h : x.isFinite = true) : x.isNaN = false := by
  have hfinite : x.toModel.unpack.isFinite = true := h
  show x.toModel.unpack.isNaN = false
  generalize x.toModel.unpack = u at hfinite ⊢
  cases u <;> first | rfl | cases hfinite

/-- A sum has the sign that both summands have. -/
theorem Signed.add (hx : Signed s x) (hy : Signed s y) : Signed s (x + y) :=
  signed_pack (HasSign.add hx hy)

/-- A square is not negative. -/
theorem signed_mul_self (h : x.isNaN = false) : Signed .positive (x * x) := by
  obtain ⟨s, hs⟩ := exists_signed h
  exact signed_pack (HasSign.mul_self hs)

/-- A quotient of doubles without a minus sign has none either, unless it is a NaN. -/
theorem Signed.div (hx : Signed .positive x) (hy : Signed .positive y)
    (h : (x / y).isNaN = false) : Signed .positive (x / y) := by
  refine signed_pack (HasSign.div hx hy ?_)
  have hquotient : (UnpackedFloat.unpack .binary64 (UnpackedFloat.pack .binary64
      (UnpackedFloat.div .binary64 x.toModel.unpack y.toModel.unpack))).isNaN = false := h
  generalize UnpackedFloat.div .binary64 x.toModel.unpack y.toModel.unpack = u at hquotient ⊢
  cases u with
  | notANumber => cases hquotient
  | _ => rfl

/-- A difference of finite doubles is not a NaN. -/
theorem isNaN_sub (hx : x.isFinite = true) (hy : y.isFinite = true) : (x - y).isNaN = false :=
  isNaN_unpack_pack (isNaN_unpackedSub hx hy)

/-- What has no minus sign is not below zero. -/
theorem Signed.zero_le (h : Signed .positive x) : 0.0 ≤ x := by
  rw [le_iff, unpack_zero]
  rw [Signed] at h
  generalize x.toModel.unpack = u at h
  cases h <;> rfl

end

end SymbolicRegression
