/-
# Answers made from words

How one random question is answered from a source of words.

* `chanceFrom` : yes with a given probability;
* `indexFrom`, `positionFrom` : a number below a bound, by rejection;
* `betweenFrom` : a double in a closed interval.
-/
import SymbolicRegression.Random.Words

namespace SymbolicRegression

variable {σ : Type} [WordSource σ]

/-! ## Yes or no -/

/-- How many of the `2 ^ 64` words answer yes to a question of probability `p < 1`. -/
def chanceThreshold (p : Float) : Nat := (p * 18446744073709551616.0).toUInt64.toNat

/-- Whether the answer to a question of probability `p` can be `answer`. -/
def ChanceAllows (p : Float) (answer : Bool) : Prop :=
  if p == 1.0 then answer = true
  else answer = true → 0 < chanceThreshold p

/-- Yes with probability `p`.  Certainty takes no word; every other question
takes one, an impossible one too. -/
def chanceFrom (p : Float) (s : σ) : Bool × σ :=
  if p == 1.0 then (true, s)
  else
    let (word, s) := WordSource.next s
    (word.toNat < chanceThreshold p, s)

/-- The answer that a word gives is one that the probability allows. -/
theorem chanceAllows_chanceFrom (p : Float) (s : σ) : ChanceAllows p (chanceFrom p s).1 := by
  unfold ChanceAllows chanceFrom
  split
  · rfl
  · intro h
    exact Nat.zero_lt_of_lt (of_decide_eq_true h)

/-! ## A number below a bound -/

/-- The greatest low half of a product that is accepted, for a bound `n` below
`2 ^ width`: one less than `n` shifted up until its top bit is the highest. -/
def acceptanceZone (width n : Nat) : Nat := n * Nat.pow 2 (width - 1 - n.log2) - 1

/-- The number below `n` that a word of `width` bits chooses: the high half of
their product, unless the low half lies above the zone. -/
def accepted? (width n word : Nat) : Option Nat :=
  let product := word * n
  if product % Nat.pow 2 width ≤ acceptanceZone width n then some (product / Nat.pow 2 width)
  else none

/-- A number that a word chooses is below the bound. -/
theorem accepted?_lt {width n word i : Nat} (hn : 0 < n) (hword : word < Nat.pow 2 width)
    (h : accepted? width n word = some i) : i < n := by
  unfold accepted? at h
  simp only at h
  split at h
  · obtain rfl := Option.some.inj h
    exact Nat.div_lt_of_lt_mul (Nat.mul_lt_mul_of_pos_right hword hn)
  · exact absurd h (by simp)

/-- The choice of the first word, among the next `tries`, whose `part` is accepted. -/
def firstAccepted (width n : Nat) (part : UInt64 → Nat) : Nat → σ → Nat × σ
  | 0, s => (0, s)
  | tries + 1, s =>
      let (word, s) := WordSource.next s
      match accepted? width n (part word) with
      | some i => (i, s)
      | none => firstAccepted width n part tries s

/-- The first choice that is accepted is below the bound, whatever the words. -/
theorem firstAccepted_lt {width n : Nat} {part : UInt64 → Nat} (hn : 0 < n)
    (hpart : ∀ word, part word < Nat.pow 2 width) (tries : Nat) (s : σ) :
    (firstAccepted width n part tries s).1 < n := by
  induction tries generalizing s with
  | zero => exact hn
  | succ tries ih =>
    rw [firstAccepted]
    simp only
    split
    · exact accepted?_lt hn (hpart _) (by assumption)
    · exact ih _

/-- More words than are ever looked at: at least half of all words are accepted. -/
@[irreducible] def patience : Nat := Nat.pow 2 62

/-- A number below `n`, from whole words. -/
def indexFrom (n : Nat) (s : σ) : Nat × σ := firstAccepted 64 n UInt64.toNat patience s

/-- The upper 32 bits of a word. -/
def upperHalf (word : UInt64) : Nat := word.toNat / Nat.pow 2 32

theorem upperHalf_lt (word : UInt64) : upperHalf word < Nat.pow 2 32 :=
  Nat.div_lt_of_lt_mul word.toNat_lt

/-- A position in a list of length `n`, from the upper halves of words while
those suffice. -/
def positionFrom (n : Nat) (s : σ) : Nat × σ :=
  if n < Nat.pow 2 32 then firstAccepted 32 n upperHalf patience s else indexFrom n s

/-- A number that is drawn is below the bound. -/
theorem indexFrom_lt {n : Nat} (hn : 0 < n) (s : σ) : (indexFrom n s).1 < n :=
  firstAccepted_lt hn (fun word => word.toNat_lt) _ _

/-- A position that is drawn is one of the list. -/
theorem positionFrom_lt {n : Nat} (hn : 0 < n) (s : σ) : (positionFrom n s).1 < n := by
  unfold positionFrom
  split
  · exact firstAccepted_lt hn upperHalf_lt _ _
  · exact indexFrom_lt hn s

/-! ## A double in an interval -/

/-- The greatest fraction that 52 bits give: one less a unit in their last place. -/
def greatestFraction : Float := 1.0 - 1.0 / 4503599627370496.0

/-- The greatest double, at or below the one with the given bits, that carries
the greatest fraction from `low` no further than `high`. -/
def scaleWithin (low high : Float) : Nat → Float
  | 0 => 0.0
  | bits + 1 =>
      let scale := Float.ofBits (UInt64.ofNat (bits + 1))
      if scale * greatestFraction + low > high then scaleWithin low high bits else scale

/-- The point of the interval from `low` to `high` that a word chooses by its upper 52 bits. -/
def pointBetween (low high : Float) (word : UInt64) : Float :=
  let scale := scaleWithin low high ((high - low) / greatestFraction).toBits.toNat
  (word >>> 12).toFloat / 4503599627370496.0 * scale + low

/-- A double from `low` to `high`, both included. -/
def betweenFrom (low high : Float) (s : σ) : Float × σ :=
  let (word, s) := WordSource.next s
  (pointBetween low high word, s)

end SymbolicRegression
