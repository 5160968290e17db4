/-
# Numerals read back

A numeral that is written with digits before the point, and with digits in its power of
ten if it has one, is spelled in a way that has no other reading.

* `digitsOf_eq`, `valueOf_digitsOf` : the digits of a number denote it, and no zero leads;
* `Numeral.WellFormed` : the numerals that have a spelling of their own;
* `Numeral.ofChars?_chars` : **a numeral is read back from its characters**;
* `NumeralStyle.wellFormed_numeral` : every style writes doubles as such numerals.
-/
import Mathlib.Algebra.Group.Nat.Defs
import Mathlib.Data.Option.Basic
import SymbolicRegression.Decimal.Style

namespace SymbolicRegression

/-! ## The digits of a number -/

/-- Digits that have been peeled stay behind those to come. -/
theorem peelDigits_append (steps n : Nat) (first later : List Digit) :
    peelDigits steps n (first ++ later) = peelDigits steps n first ++ later := by
  induction steps generalizing n first with
  | zero => rfl
  | succ steps ih =>
    rw [peelDigits, peelDigits]
    split
    · rfl
    · exact ih (n / 10) (Digit.last n :: first)

/-- Peeling goes from the last digit to the first. -/
theorem peelDigits_succ {steps n : Nat} (hn : 10 ≤ n) :
    peelDigits (steps + 1) n [] = peelDigits steps (n / 10) [] ++ [Digit.last n] := by
  rw [peelDigits, if_neg (Nat.not_lt.2 hn)]
  exact peelDigits_append steps (n / 10) [] [Digit.last n]

/-- Without its last digit a number has one digit less. -/
theorem div_ten_lt_pow {steps n : Nat} (h : n < 10 ^ (steps + 1)) : n / 10 < 10 ^ steps := by
  rw [Nat.pow_succ] at h
  omega

/-- With steps enough, the peeled digits denote the number. -/
theorem valueOf_peelDigits {steps n : Nat} (h : n < 10 ^ (steps + 1)) :
    valueOf (peelDigits (steps + 1) n []) = n := by
  induction steps generalizing n with
  | zero =>
    have hlt : n < 10 := by simpa using h
    rw [peelDigits, if_pos hlt]
    show 10 * 0 + n % 10 = n
    omega
  | succ steps ih =>
    by_cases hn : n < 10
    · rw [peelDigits, if_pos hn]
      show 10 * 0 + n % 10 = n
      omega
    · rw [peelDigits_succ (Nat.le_of_not_lt hn), valueOf_concat, ih (div_ten_lt_pow h)]
      show 10 * (n / 10) + n % 10 = n
      omega

/-- The first of the peeled digits of a number other than zero is not zero. -/
theorem peelDigits_eq_cons {steps n : Nat} (hpos : 0 < n) (h : n < 10 ^ (steps + 1)) :
    ∃ d rest, peelDigits (steps + 1) n [] = d :: rest ∧ d ≠ Digit.zero := by
  have hlast (hn : n < 10) : Digit.last n ≠ Digit.zero := by
    intro hzero
    have hval : n % 10 = 0 := congrArg Fin.val hzero
    omega
  induction steps generalizing n with
  | zero =>
    have hlt : n < 10 := by simpa using h
    rw [peelDigits, if_pos hlt]
    exact ⟨_, [], rfl, hlast hlt⟩
  | succ steps ih =>
    by_cases hn : n < 10
    · rw [peelDigits, if_pos hn]
      exact ⟨_, [], rfl, hlast hn⟩
    · have hlead : 0 < n / 10 := by omega
      have hlead' (hlt : n / 10 < 10) : Digit.last (n / 10) ≠ Digit.zero := by
        intro hzero
        have hval : n / 10 % 10 = 0 := congrArg Fin.val hzero
        omega
      obtain ⟨d, rest, hpeel, hd⟩ := ih hlead (div_ten_lt_pow h) hlead'
      rw [peelDigits_succ (Nat.le_of_not_lt hn), hpeel]
      exact ⟨d, rest ++ [Digit.last n], rfl, hd⟩

/-- A number has no more digits than steps are taken to peel it. -/
theorem lt_pow_succ_self (n : Nat) : n < 10 ^ (n + 1) :=
  Nat.lt_trans (Nat.lt_succ_self n) (Nat.lt_pow_self (by decide))

/-- **The digits of a number denote it.** -/
theorem valueOf_digitsOf (n : Nat) : valueOf (digitsOf n) = n :=
  valueOf_peelDigits (lt_pow_succ_self n)

theorem digitsOf_zero : digitsOf 0 = [Digit.zero] := rfl

/-- **No zero leads** the digits of a number other than zero. -/
theorem digitsOf_eq {n : Nat} (hpos : 0 < n) :
    ∃ d rest, digitsOf n = d :: rest ∧ d ≠ Digit.zero :=
  peelDigits_eq_cons hpos (lt_pow_succ_self n)

/-- Every number has a digit. -/
theorem digitsOf_ne_nil (n : Nat) : digitsOf n ≠ [] := by
  rcases Nat.eq_zero_or_pos n with rfl | hpos
  · rw [digitsOf_zero]
    exact List.cons_ne_nil _ _
  · obtain ⟨d, rest, h, -⟩ := digitsOf_eq hpos
    rw [h]
    exact List.cons_ne_nil _ _

/-! ## Numerals with a spelling of their own -/

namespace Numeral

/-- Digits may stand before the point if the first of them is not zero. -/
theorem wholeAllowed_cons {d : Digit} (rest : List Digit) (hd : d ≠ Digit.zero) :
    wholeAllowed (d :: rest) = true := by
  have hval : d.val ≠ 0 := fun h => hd (Fin.ext h)
  rw [wholeAllowed, decide_eq_true hval, Bool.true_or]

/-- The digits of a number may stand before the point. -/
theorem wholeAllowed_digitsOf (n : Nat) : wholeAllowed (digitsOf n) = true := by
  rcases Nat.eq_zero_or_pos n with rfl | hpos
  · rfl
  · obtain ⟨d, rest, h, hd⟩ := digitsOf_eq hpos
    rw [h]
    exact wholeAllowed_cons rest hd

/-- A numeral with digits before the point, of which no zero leads, and with digits
in its power of ten, if it has one. -/
structure WellFormed (n : Numeral) : Prop where
  whole : wholeAllowed n.whole = true
  exponent : ∀ e, n.exponent = some e → e.digits ≠ []

/-- A natural number is written well-formed. -/
theorem wellFormed_ofNat (n : Nat) : (ofNat n).WellFormed where
  whole := wholeAllowed_digitsOf n
  exponent := by
    intro e h
    cases h

/-- A well-formed numeral has a digit before its point. -/
theorem WellFormed.whole_ne_nil {n : Numeral} (h : n.WellFormed) : n.whole ≠ [] := by
  intro hnil
  have hwhole := h.whole
  rw [hnil] at hwhole
  cases hwhole

/-! ## Reading what is written -/

/-- The characters of a power of ten, if there is one. -/
def exponentChars : Option Exponent → List Char
  | none => []
  | some e => 'e' :: (e.sign.chars ++ e.digits.map Digit.char)

/-- The characters of the digits after the point, if there are any. -/
def fractionChars (fraction : List Digit) : List Char :=
  if fraction = [] then [] else '.' :: fraction.map Digit.char

/-- A numeral is written as its sign, its digits, its fraction and its power of ten. -/
theorem chars_eq (n : Numeral) :
    n.chars = (if n.negative then ['-'] else []) ++
      (n.whole.map Digit.char ++ (fractionChars n.fraction ++ exponentChars n.exponent)) := by
  rw [chars, fractionChars, ← List.append_assoc, ← List.append_assoc]
  cases n.exponent <;> rfl

/-- No character but a digit stands for a digit. -/
theorem char_ne_mark (d : Digit) : d.char ≠ '-' ∧ d.char ≠ '+' ∧ d.char ≠ '.' := by
  revert d
  decide

/-- The characters of a numeral are digits and a few marks. -/
theorem mem_chars {n : Numeral} {c : Char} (h : c ∈ n.chars) :
    c ∈ ['-', '+', '.', 'e'] ∨ ∃ d : Digit, c = d.char := by
  have hdigits (ds : List Digit) (hc : c ∈ ds.map Digit.char) : ∃ d : Digit, c = d.char := by
    obtain ⟨d, -, hd⟩ := List.mem_map.1 hc
    exact ⟨d, hd.symm⟩
  rw [chars_eq, List.mem_append, List.mem_append, List.mem_append] at h
  rcases h with hsign | hwhole | hfraction | hexponent
  · split at hsign
    · rw [List.mem_singleton.1 hsign]
      exact .inl (by decide)
    · cases hsign
  · exact .inr (hdigits _ hwhole)
  · rw [fractionChars] at hfraction
    split at hfraction
    · cases hfraction
    · rcases List.mem_cons.1 hfraction with rfl | hc
      · exact .inl (by decide)
      · exact .inr (hdigits _ hc)
  · cases hn : n.exponent with
    | none =>
      rw [hn] at hexponent
      cases hexponent
    | some e =>
      rw [hn, exponentChars, List.mem_cons, List.mem_append] at hexponent
      rcases hexponent with rfl | hsign | hc
      · exact .inl (by decide)
      · refine .inl ?_
        cases hs : e.sign with
        | bare =>
          rw [hs] at hsign
          cases hsign
        | plus | minus =>
          rw [hs] at hsign
          rw [List.mem_singleton.1 hsign]
          decide
      · exact .inr (hdigits _ hc)

/-- Digits alone are read to the end. -/
theorem spanDigits_map_char (ds : List Digit) : spanDigits (ds.map Digit.char) = (ds, []) := by
  have h := spanDigits_map_char_append ds [] (by simp)
  rwa [List.append_nil] at h

/-- The sign of a power of ten is read back, also if none is written. -/
theorem readExponentSign_chars (sign : ExponentSign) {ds : List Digit} (hds : ds ≠ []) :
    readExponentSign (sign.chars ++ ds.map Digit.char) = (sign, ds.map Digit.char) := by
  cases sign with
  | plus => rfl
  | minus => rfl
  | bare =>
    obtain ⟨d, rest, rfl⟩ := List.exists_cons_of_ne_nil hds
    obtain ⟨hminus, hplus, -⟩ := char_ne_mark d
    rw [ExponentSign.chars, List.nil_append, List.map_cons, readExponentSign]
    · intro rest' h
      exact hplus (List.cons.inj h).1
    · intro rest' h
      exact hminus (List.cons.inj h).1

/-- A power of ten is read back from its characters. -/
theorem readExponent_exponentChars {exponent : Option Exponent}
    (h : ∀ e, exponent = some e → e.digits ≠ []) :
    readExponent (exponentChars exponent) = some exponent := by
  cases exponent with
  | none => rfl
  | some e =>
    obtain ⟨sign, ds⟩ := e
    have hds : ds ≠ [] := h _ rfl
    rw [exponentChars, readExponent, if_pos (.inl rfl), readExponentSign_chars sign hds]
    simp only [spanDigits_map_char]

/-- The power of ten does not go on with the digits before it. -/
theorem ofChar?_head_exponentChars (exponent : Option Exponent) :
    ∀ c ∈ (exponentChars exponent).head?, Digit.ofChar? c = none := by
  cases exponent with
  | none => simp [exponentChars]
  | some e =>
    rintro c ⟨⟩
    decide

/-- The digits after the point are read back, up to the power of ten. -/
theorem readFraction_fractionChars (fraction : List Digit) (exponent : Option Exponent) :
    readFraction (fractionChars fraction ++ exponentChars exponent) =
      some (fraction, exponentChars exponent) := by
  cases fraction with
  | nil =>
    cases exponent with
    | none => rfl
    | some e => rfl
  | cons d rest =>
    have hspan : spanDigits ((d :: rest).map Digit.char ++ exponentChars exponent) = _ :=
      spanDigits_map_char_append (d :: rest) _ (ofChar?_head_exponentChars exponent)
    rw [fractionChars, if_neg (List.cons_ne_nil d rest), List.cons_append, readFraction, hspan]

/-- Neither a point nor a power of ten goes on with the digits before it. -/
theorem ofChar?_head_fractionChars (fraction : List Digit) (exponent : Option Exponent) :
    ∀ c ∈ (fractionChars fraction ++ exponentChars exponent).head?, Digit.ofChar? c = none := by
  cases fraction with
  | nil => exact ofChar?_head_exponentChars exponent
  | cons d rest =>
    rintro c ⟨⟩
    decide

/-- Read the sign of a numeral. -/
def readSign (cs : List Char) : Bool × List Char :=
  match cs with
  | '-' :: rest => (true, rest)
  | _ => (false, cs)

/-- Reading a numeral goes part by part, from the sign to the power of ten. -/
theorem ofChars?_eq (cs : List Char) :
    ofChars? cs = (do
      let (whole, rest) := spanDigits (readSign cs).2
      guard (wholeAllowed whole)
      let (fraction, rest) ← readFraction rest
      let exponent ← readExponent rest
      return { negative := (readSign cs).1, whole, fraction, exponent }) := by
  unfold ofChars?
  split
  rename_i negative rest heq
  have hsign : readSign cs = (negative, rest) := heq
  rw [hsign]

/-- The sign of a numeral is read back: no digit is taken for it. -/
theorem readSign_chars (negative : Bool) {whole : List Digit} (hwhole : whole ≠ [])
    (rest : List Char) :
    readSign ((if negative then ['-'] else []) ++ (whole.map Digit.char ++ rest)) =
      (negative, whole.map Digit.char ++ rest) := by
  cases negative with
  | true => rfl
  | false =>
    obtain ⟨d, ds, rfl⟩ := List.exists_cons_of_ne_nil hwhole
    show readSign (d.char :: (ds.map Digit.char ++ rest)) = _
    rw [readSign]
    · rfl
    · intro rest' h
      exact (char_ne_mark d).1 (List.cons.inj h).1

/-- **A numeral is read back from its characters.** -/
theorem ofChars?_chars {n : Numeral} (h : n.WellFormed) : ofChars? n.chars = some n := by
  obtain ⟨negative, whole, fraction, exponent⟩ := n
  have hsign := readSign_chars negative h.whole_ne_nil
    (fractionChars fraction ++ exponentChars exponent)
  have hspan := spanDigits_map_char_append whole _ (ofChar?_head_fractionChars fraction exponent)
  have hfraction := readFraction_fractionChars fraction exponent
  have hexponent := readExponent_exponentChars h.exponent
  have hwhole : wholeAllowed whole = true := h.whole
  rw [chars_eq, ofChars?_eq]
  simp only at hsign hexponent ⊢
  simp only [hsign, hspan, hwhole, hfraction, guard, if_true, Option.pure_def,
    Option.bind_eq_bind, Option.bind_some, hexponent]

end Numeral

/-! ## The numerals of doubles -/

/-- At most half a place below a double rounds to it. -/
theorem Magnitude.quartersBelow_le (v : Magnitude) : v.quartersBelow ≤ 2 := by
  unfold quartersBelow
  split <;> decide

/-- No multiple of a grid but a positive one rounds to a magnitude other than zero. -/
theorem Magnitude.pos_of_roundsTo {v : Magnitude} {grid : Int} {d : Nat}
    (positive : 0 < v.significand) (h : v.roundsTo grid d = true) : 0 < d := by
  have quarters := v.quartersBelow_le
  have hlow : 0 < (4 * v.significand - v.quartersBelow) * v.step grid :=
    Nat.mul_pos (by omega) (v.step_pos grid)
  have hpoint : (4 * v.significand - v.quartersBelow) * v.step grid ≤ 4 * d * v.cell grid := by
    simp only [roundsTo] at h
    split at h
    · exact of_decide_eq_true (Bool.and_eq_true_iff.1 h).1
    · exact Nat.le_of_lt (of_decide_eq_true (Bool.and_eq_true_iff.1 h).1)
  refine Nat.pos_of_ne_zero ?_
  rintro rfl
  omega

namespace NumeralStyle

/-- Only zeros at the end are dropped, not one before another digit. -/
theorem trimZeros_cons {d : Digit} (rest : List Digit) (hd : d ≠ Digit.zero) :
    trimZeros (d :: rest) = d :: trimZeros rest := by
  have hkeep : [d].dropWhile (· = Digit.zero) = [d] := by
    rw [List.dropWhile_cons, if_neg (by simpa using hd)]
  rw [trimZeros, List.reverse_cons, List.dropWhile_append, hkeep, trimZeros]
  split
  · rename_i hempty
    rw [List.isEmpty_iff.1 hempty]
    rfl
  · rw [List.reverse_append]
    rfl

/-- Something is left of a number other than zero without the zeros at its end. -/
theorem trimZeros_digitsOf_ne_nil {n : Nat} (hpos : 0 < n) : trimZeros (digitsOf n) ≠ [] := by
  obtain ⟨d, rest, hdigits, hd⟩ := digitsOf_eq hpos
  rw [hdigits, trimZeros_cons rest hd]
  exact List.cons_ne_nil _ _

/-- A numeral with its digits around the point is well-formed, wherever the point is. -/
theorem wellFormed_positionalNumeral (s : NumeralStyle) (negative : Bool) {d : Digit}
    (rest : List Digit) (hd : d ≠ Digit.zero) (point : Int) :
    (s.positionalNumeral negative (d :: rest) point).WellFormed where
  whole := by
    rw [positionalNumeral]
    split
    · rfl
    · split
      · exact Numeral.wholeAllowed_cons _ hd
      · obtain ⟨n, hn⟩ : ∃ n, point.toNat = n + 1 := ⟨point.toNat - 1, by omega⟩
        rw [hn, List.take_succ_cons]
        exact Numeral.wholeAllowed_cons _ hd
  exponent := by
    intro e h
    rw [positionalNumeral] at h
    split at h
    · cases h
    · split at h <;> cases h

/-- A numeral with a power of ten is well-formed. -/
theorem wellFormed_scientificNumeral (s : NumeralStyle) (negative : Bool) {d : Digit}
    (rest : List Digit) (hd : d ≠ Digit.zero) (lead : Int) :
    (s.scientificNumeral negative (d :: rest) lead).WellFormed where
  whole := Numeral.wholeAllowed_cons [] hd
  exponent := by
    rintro e ⟨⟩
    exact digitsOf_ne_nil lead.natAbs

/-- **Every style writes a double as a numeral with a spelling of its own.** -/
theorem wellFormed_numeral (s : NumeralStyle) (x : Float) : (s.numeral x).WellFormed := by
  rw [numeral]
  split
  · exact ⟨rfl, by rintro e ⟨⟩⟩
  · rename_i hzero
    have hpos : 0 < (shortest s.tie (Magnitude.ofFloat x)).coefficient :=
      Magnitude.pos_of_roundsTo (Nat.pos_of_ne_zero hzero)
        (shortest_roundsTo (Nat.pos_of_ne_zero hzero))
    obtain ⟨d, rest, hdigits, hd⟩ := digitsOf_eq hpos
    simp only [hdigits, trimZeros_cons rest hd]
    split
    · exact wellFormed_positionalNumeral s _ _ hd _
    · exact wellFormed_scientificNumeral s _ _ hd _

/-- The sign of a double is that of its numeral. -/
theorem negative_numeral (s : NumeralStyle) (x : Float) : (s.numeral x).negative = signBit x := by
  rw [numeral]
  split
  · rfl
  · simp only
    split
    · rw [positionalNumeral]
      split
      · rfl
      · split <;> rfl
    · rfl

end NumeralStyle

end SymbolicRegression
