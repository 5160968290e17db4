/-
# A double that is written and read again

Reading need not come back to the double that was written, but it comes back to a
double: nothing finite is written as a numeral beyond all doubles.  Nor does a probability
come back as more than one, which would make valid settings invalid.

* `NumeralStyle.Readable` : what the reader relies on in the numerals of records;
* `Json.reread?_of_isFinite` : what is read where a finite double was written;
* `Json.exists_reread?` : **a finite double comes back as a finite double;**
* `Json.isProbability_reread?` : **a probability comes back as a probability.**
-/
import SymbolicRegression.Proofs.Rereading
import SymbolicRegression.Proofs.Scaling
import SymbolicRegression.Proofs.SignedAmount

namespace SymbolicRegression

/-! ## The numerals of records -/

/-- A numeral that is read as a double, digit by digit: it has few digits before the
point, it shows that it is no integer, and its power of ten is not too great. -/
structure Numeral.Readable (n : Numeral) : Prop where
  whole : n.whole.length ≤ 16
  real : n.fraction ≠ [] ∨ n.exponent ≠ none
  power : ∀ e, n.exponent = some e → e.power ≤ 308

theorem Numeral.Readable.integer?_eq_none {n : Numeral} (h : n.Readable) : n.integer? = none := by
  have hreal : ¬ (n.fraction = [] ∧ n.exponent = none) := fun hn => h.real.elim (· hn.1) (· hn.2)
  rw [integer?, if_neg hreal]

theorem readable_positionalNumeral (negative : Bool) {digits : List Digit} (hdigits : digits ≠ [])
    {point : Int} (hpoint : point ≤ 16) :
    (recordStyle.positionalNumeral negative digits point).Readable := by
  rw [NumeralStyle.positionalNumeral]
  split
  · refine ⟨show 1 ≤ 16 by decide, .inl ?_, by rintro e ⟨⟩⟩
    exact List.append_ne_nil_of_right_ne_nil _ hdigits
  · split
    · refine ⟨?_, .inl (List.cons_ne_nil _ _), by rintro e ⟨⟩⟩
      rw [List.length_append, List.length_replicate]
      omega
    · refine ⟨?_, .inl ?_, by rintro e ⟨⟩⟩
      · rw [List.length_take]
        omega
      · rw [← List.length_pos_iff_ne_nil, List.length_drop]
        omega

theorem readable_scientificNumeral (negative : Bool) (digits : List Digit) {lead : Int}
    (hlead : lead ≤ 308) : (recordStyle.scientificNumeral negative digits lead).Readable where
  whole := (List.length_take_le 1 digits).trans (by decide)
  real := .inr (Option.some_ne_none _)
  power := by
    rintro e ⟨⟩
    rwa [NumeralStyle.power_scientificNumeral]

/-- What rounds to a double is below the 309th power of ten. -/
theorem Canonical.half_above_lt {m : Nat} {e : Int} (hc : Canonical m e) (he : e ≤ 971) :
    ((m : ℚ) + 1 / 2) * 2 ^ e < 10 ^ (309 : ℤ) := by
  have hm : (m : ℚ) + 1 / 2 ≤ 2 ^ (53 : ℤ) := by
    have hcast : (m : ℚ) + 1 ≤ 2 ^ 53 := by exact_mod_cast hc.lt
    norm_num at hcast ⊢
    linarith
  have hpowers : 2 ^ 1024 < 10 ^ 309 := by decide +kernel
  have hcast : ((2 ^ 1024 : ℕ) : ℚ) < ((10 ^ 309 : ℕ) : ℚ) := Nat.cast_lt.2 hpowers
  rw [Nat.cast_pow, Nat.cast_pow] at hcast
  calc ((m : ℚ) + 1 / 2) * 2 ^ e ≤ 2 ^ (53 : ℤ) * 2 ^ (971 : ℤ) :=
        mul_le_mul hm (zpow_le_zpow_right₀ (by norm_num) he) (by positivity) (by positivity)
    _ = 2 ^ ((1024 : ℕ) : ℤ) := (zpow_add₀ (by norm_num) _ _).symm
    _ = ((2 : ℕ) : ℚ) ^ 1024 := zpow_natCast _ _
    _ < ((10 : ℕ) : ℚ) ^ 309 := hcast
    _ = 10 ^ (309 : ℤ) := (zpow_natCast _ 309).symm

/-- **A double is written as a numeral that is read as one.** -/
theorem readable_numeral {x : Float} (h : x.isFinite = true) :
    (recordStyle.numeral x).Readable := by
  obtain ⟨hc, he⟩ := Magnitude.canonical_of_isFinite h
  rw [NumeralStyle.numeral]
  split
  · exact ⟨show 1 ≤ 16 by decide, .inl (List.cons_ne_nil _ _), by rintro e ⟨⟩⟩
  · rename_i hzero
    have hrounds := @shortest_roundsTo recordStyle.tie _ (Nat.pos_of_ne_zero hzero)
    have hpos := Magnitude.pos_of_roundsTo (Nat.pos_of_ne_zero hzero) hrounds
    have hvalue := Decimal.value_le_of_roundsTo hrounds
    have hlow := Decimal.zpow_le_value hpos
    generalize shortest recordStyle.tie (Magnitude.ofFloat x) = decimal at hpos hvalue hlow
    have hlead : ((digitsOf decimal.coefficient).length : Int) + decimal.exponent - 1 ≤ 308 := by
      have hpow := hlow.trans_lt (hvalue.trans_lt (hc.half_above_lt he))
      have hexp := (zpow_lt_zpow_iff_right₀ (by norm_num : (1 : ℚ) < 10)).1 hpow
      omega
    simp only
    split
    · rename_i hpositional
      refine readable_positionalNumeral _ (NumeralStyle.trimZeros_digitsOf_ne_nil hpos) ?_
      have hbelow := of_decide_eq_true (Bool.and_eq_true_iff.1 hpositional).2
      omega
    · exact readable_scientificNumeral _ _ hlead

/-! ## Reading the numerals -/

/-- The two greatest magnitudes can be read, though their numerals are too close to the
bound for a general argument. -/
theorem isFinite_unsignedFloat?_of_greatest {x : Float}
    (hv : Magnitude.ofFloat x = ⟨2 ^ 53 - 1, 971⟩ ∨ Magnitude.ofFloat x = ⟨2 ^ 53 - 2, 971⟩) :
    ∃ f, (recordStyle.numeral x).unsignedFloat? = some f ∧ f.isFinite = true := by
  have hread : (recordStyle.numeral x).unsignedFloat?.any Float.isFinite = true := by
    rw [NumeralStyle.numeral]
    generalize signBit x = negative
    rcases hv with hv | hv <;> rw [hv] <;> revert negative <;> decide +kernel
  rwa [Option.any_eq_true] at hread

/-- One is read as one. -/
theorem unsignedFloat?_of_one {x : Float} (hv : Magnitude.ofFloat x = ⟨2 ^ 52, -52⟩) :
    (recordStyle.numeral x).unsignedFloat? = some 1.0 := by
  rw [NumeralStyle.numeral, hv]
  generalize signBit x = negative
  revert negative
  decide +kernel

/-- All other ones are clearly below the bound. -/
theorem Canonical.half_above_lt_bound {m : Nat} {e : Int} (hc : Canonical m e) (he : e ≤ 971)
    (hgreatest : ¬ (e = 971 ∧ 2 ^ 53 - 2 ≤ m)) :
    ((m : ℚ) + 1 / 2) * 2 ^ e * (1 + 1 / 2 ^ 53) ^ 2 < roundingBound := by
  have hlt := hc.lt
  have hpos : (0 : ℚ) < 2 ^ (971 : ℤ) := by positivity
  rw [roundingBound]
  rcases he.lt_or_eq with hless | rfl
  · have hm : (m : ℚ) + 1 ≤ 2 ^ 53 := by exact_mod_cast hlt
    have hhalf : (2 : ℚ) ^ e ≤ 1 / 2 * 2 ^ (971 : ℤ) := by
      calc (2 : ℚ) ^ e ≤ 2 ^ (970 : ℤ) := zpow_le_zpow_right₀ (by norm_num) (by omega)
        _ = 1 / 2 * 2 ^ (971 : ℤ) := by
          rw [show (971 : ℤ) = 1 + 970 from rfl, zpow_add₀ (by norm_num), zpow_one]
          ring
    calc ((m : ℚ) + 1 / 2) * 2 ^ e * (1 + 1 / 2 ^ 53) ^ 2
        ≤ 2 ^ 53 * (1 / 2 * 2 ^ (971 : ℤ)) * (1 + 1 / 2 ^ 53) ^ 2 := by
          refine mul_le_mul_of_nonneg_right ?_ (by positivity)
          exact mul_le_mul (by linarith) hhalf (by positivity) (by positivity)
      _ = 2 ^ 53 * (1 / 2) * (1 + 1 / 2 ^ 53) ^ 2 * 2 ^ (971 : ℤ) := by ring
      _ < (2 ^ 53 - 1 / 2) * 2 ^ (971 : ℤ) := mul_lt_mul_of_pos_right (by norm_num) hpos
  · have hm : (m : ℚ) + 3 ≤ 2 ^ 53 := by
      have hnat : m + 3 ≤ 2 ^ 53 := by omega
      exact_mod_cast hnat
    calc ((m : ℚ) + 1 / 2) * 2 ^ (971 : ℤ) * (1 + 1 / 2 ^ 53) ^ 2
        = (m + 1 / 2) * (1 + 1 / 2 ^ 53) ^ 2 * 2 ^ (971 : ℤ) := by ring
      _ < (2 ^ 53 - 1 / 2) * 2 ^ (971 : ℤ) := by
          refine mul_lt_mul_of_pos_right ?_ hpos
          calc ((m : ℚ) + 1 / 2) * (1 + 1 / 2 ^ 53) ^ 2
              ≤ (2 ^ 53 - 5 / 2) * (1 + 1 / 2 ^ 53) ^ 2 :=
                mul_le_mul_of_nonneg_right (by linarith) (by positivity)
            _ < 2 ^ 53 - 1 / 2 := by norm_num

/-- What rounds to a double below one is below one. -/
theorem Canonical.half_above_le_one {m : Nat} {e : Int} (hc : Canonical m e)
    (hle : (m : ℚ) * 2 ^ e ≤ 1) (hne : ¬ (m = 2 ^ 52 ∧ e = -52)) :
    ((m : ℚ) + 1 / 2) * 2 ^ e ≤ 1 - 1 / 2 ^ 54 := by
  have he : e ≤ -53 := by
    rcases hc.le_one_iff.1 hle with hlt | ⟨rfl, hm⟩
    · omega
    · have hnormal := hc.normal.resolve_left (by decide)
      exact absurd ⟨Nat.le_antisymm hm hnormal, rfl⟩ hne
  have hm : (m : ℚ) + 1 ≤ 2 ^ 53 := by exact_mod_cast hc.lt
  calc ((m : ℚ) + 1 / 2) * 2 ^ e ≤ (2 ^ 53 - 1 / 2) * 2 ^ (-53 : ℤ) :=
        mul_le_mul (by linarith) (zpow_le_zpow_right₀ (by norm_num) he) (by positivity)
          (by norm_num)
    _ = 1 - 1 / 2 ^ 54 := by norm_num

/-- **The numeral of a finite double is read as a finite double**, and that of a double up
to one as a probability. -/
theorem exists_unsignedFloat?_numeral {x : Float} (h : x.isFinite = true) :
    ∃ f, (recordStyle.numeral x).unsignedFloat? = some f ∧ f.isFinite = true ∧
      ((Magnitude.ofFloat x).value ≤ 1 → Settings.isProbability f = true) := by
  obtain ⟨hc, he⟩ := Magnitude.canonical_of_isFinite h
  have hreadable := readable_numeral h
  -- zero has no shortest decimal; next to the bound, and for one, evaluation decides
  rcases Nat.eq_zero_or_pos (Magnitude.ofFloat x).significand with hzero | hpos
  · have hvalue : (recordStyle.numeral x).value ≤ 0 := by
      rw [NumeralStyle.numeral, if_pos hzero, Numeral.value, valueOf_append]
      simp [valueOf, Digit.zero, NumeralStyle.integralFraction, recordStyle]
    have hbound : (0 : ℚ) * (1 + 1 / 2 ^ 53) ^ 2 < roundingBound := by
      rw [zero_mul]
      exact lt_trans (by positivity) two_pow_lt_roundingBound
    obtain ⟨f, z, hf, hz, hone⟩ :=
      Numeral.exists_unsignedFloat? hreadable.whole hreadable.power hvalue hbound
    exact ⟨f, hf, isFinite_of_amount hz, fun _ => isProbability_of_amount hz (hone (by norm_num))⟩
  · by_cases hgreatest : (Magnitude.ofFloat x).exponent = 971 ∧
        2 ^ 53 - 2 ≤ (Magnitude.ofFloat x).significand
    · obtain ⟨hexponent, hsignificand⟩ := hgreatest
      have hlt := hc.lt
      have hv : Magnitude.ofFloat x = ⟨2 ^ 53 - 1, 971⟩ ∨
          Magnitude.ofFloat x = ⟨2 ^ 53 - 2, 971⟩ := by
        rw [← hexponent]
        generalize Magnitude.ofFloat x = v at hsignificand hlt
        obtain ⟨m, e⟩ := v
        simp only at hsignificand hlt
        rcases (show m = 2 ^ 53 - 1 ∨ m = 2 ^ 53 - 2 by omega) with rfl | rfl
        · exact .inl rfl
        · exact .inr rfl
      obtain ⟨f, hf, hfinite⟩ := isFinite_unsignedFloat?_of_greatest hv
      refine ⟨f, hf, hfinite, fun hle => ?_⟩
      rcases hc.le_one_iff.1 hle with hsmall | ⟨hsmall, -⟩ <;> omega
    · by_cases hone : (Magnitude.ofFloat x).significand = 2 ^ 52 ∧
          (Magnitude.ofFloat x).exponent = -52
      · obtain ⟨hsignificand, hexponent⟩ := hone
        have hv : Magnitude.ofFloat x = ⟨2 ^ 52, -52⟩ := by
          rw [← hsignificand, ← hexponent]
        exact ⟨1.0, unsignedFloat?_of_one hv, by decide, fun _ => by decide⟩
      · have hvalue : (recordStyle.numeral x).value ≤ _ :=
          (NumeralStyle.value_numeral recordStyle hpos).trans_le
            (Decimal.value_le_of_roundsTo (shortest_roundsTo hpos))
        obtain ⟨f, z, hf, hz, hle⟩ := Numeral.exists_unsignedFloat? hreadable.whole
          hreadable.power hvalue (hc.half_above_lt_bound he hgreatest)
        refine ⟨f, hf, isFinite_of_amount hz, fun hv => isProbability_of_amount hz (hle ?_)⟩
        exact hc.half_above_le_one hv hone

/-! ## Rereading -/

namespace Json

/-- What is read where a finite double was written: its numeral, under its sign. -/
theorem reread?_of_isFinite {x : Float} (h : x.isFinite = true) :
    reread? x = (recordStyle.numeral x).unsignedFloat?.map fun f =>
      if signBit x then -f else f := by
  rw [reread?, encodeFloat_of_isFinite h, float?, number?, Number.ofNumeral?,
    (readable_numeral h).integer?_eq_none, NumeralStyle.negative_numeral, Option.map_map]
  rfl

/-- **A finite double comes back as a finite double.** -/
theorem exists_reread? {x : Float} (h : x.isFinite = true) :
    ∃ y, reread? x = some y ∧ y.isFinite = true := by
  obtain ⟨f, hf, hfinite, -⟩ := exists_unsignedFloat?_numeral h
  rw [reread?_of_isFinite h, hf]
  refine ⟨_, rfl, ?_⟩
  split
  · exact isFinite_neg hfinite
  · exact hfinite

/-- Zero comes back with its sign. -/
theorem reread?_of_significand_eq_zero {x : Float} (h : x.isFinite = true)
    (hzero : (Magnitude.ofFloat x).significand = 0) :
    reread? x = some (if signBit x then -0.0 else 0.0) := by
  rw [reread?_of_isFinite h, NumeralStyle.numeral, if_pos hzero]
  generalize signBit x = negative
  revert negative
  decide +kernel

/-- **A probability comes back as a probability.** -/
theorem isProbability_reread? {p q : Float} (hp : Settings.isProbability p = true)
    (hq : reread? p = some q) : Settings.isProbability q = true := by
  obtain ⟨hfinite, hvalue, hsign⟩ := value_le_one_of_isProbability hp
  cases hnegative : signBit p with
  | true =>
    rw [reread?_of_significand_eq_zero hfinite (hsign hnegative), hnegative] at hq
    obtain rfl := Option.some.inj hq
    decide
  | false =>
    obtain ⟨f, hf, -, hone⟩ := exists_unsignedFloat?_numeral hfinite
    rw [reread?_of_isFinite hfinite, hf, hnegative] at hq
    obtain rfl := Option.some.inj hq
    exact hone hvalue

end Json

end SymbolicRegression
