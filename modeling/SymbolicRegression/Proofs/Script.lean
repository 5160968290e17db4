/-
# Words for every answer

A script of words leads a random computation to a result if, whatever words come after
it, the computation takes exactly these words and has that result.  Whatever a question
allows as an answer, one word at most gives it, and so every possible result has a script.

* `Yields` : what a use of words takes and gives;
* `exists_accepted?` : **every number below a bound has a word that chooses it**;
* `Draw.LeadsTo` : a script leads a computation to a result;
* `Draw.Addressable` : a word is enough to tell the numbers that are asked for;
* `Draw.exists_script` : **every possible result of such a computation has a script**;
* `Draw.LeadsTo.bind`, `Draw.LeadsTo.retry` : the scripts of computations made of others.
-/
import SymbolicRegression.Random.Draw

namespace SymbolicRegression

variable {α β : Type}

/-! ## Taking words -/

/-- Whatever words come after the script, `f` takes just the script and gives `result`. -/
def Yields (f : ScriptedWords → α × ScriptedWords) (script : List UInt64) (result : α) : Prop :=
  ∀ rest generator taken,
    f ⟨script ++ rest, generator, taken⟩ = (result, ⟨rest, generator, taken + script.length⟩)

/-- Two uses of words after one another take the one script and then the other. -/
theorem Yields.append {f : ScriptedWords → α × ScriptedWords}
    {g : α → ScriptedWords → β × ScriptedWords} {first second : List UInt64} {a : α} {b : β}
    (hf : Yields f first a) (hg : Yields (g a) second b) :
    Yields (fun s => g (f s).1 (f s).2) (first ++ second) b := by
  intro rest generator taken
  have hfirst := hf (second ++ rest) generator taken
  have hsecond := hg rest generator (taken + first.length)
  rw [← List.append_assoc] at hfirst
  rw [Nat.add_assoc, ← List.length_append] at hsecond
  simp only [hfirst, hsecond]

/-! ## Yes or no -/

/-- The least word answers yes where any does, and the greatest one no. -/
theorem exists_yields_chanceFrom {p : Float} {answer : Bool} (h : ChanceAllows p answer) :
    ∃ script, Yields (chanceFrom p) script answer := by
  rw [ChanceAllows] at h
  split at h
  · rename_i hone
    refine ⟨[], fun rest generator taken => ?_⟩
    rw [chanceFrom, if_pos hone, h]
    rfl
  · rename_i hone
    cases answer with
    | true =>
      refine ⟨[0], fun rest generator taken => ?_⟩
      rw [chanceFrom, if_neg hone]
      exact Prod.ext (decide_eq_true (h rfl)) rfl
    | false =>
      refine ⟨[UInt64.ofNat (UInt64.size - 1)], fun rest generator taken => ?_⟩
      have hlt : chanceThreshold p < UInt64.size := UInt64.toNat_lt _
      have hword : (UInt64.ofNat (UInt64.size - 1)).toNat = UInt64.size - 1 := by decide
      rw [chanceFrom, if_neg hone]
      -- the threshold is a word itself, so the greatest word is not below it
      refine Prod.ext (decide_eq_false ?_) rfl
      show ¬ (UInt64.ofNat (UInt64.size - 1)).toNat < chanceThreshold p
      omega

/-! ## A number below a bound -/

/-- **Every number below a bound has a word that chooses it.**  The word is the least one
whose product with the bound reaches the high half, so the low half is less than the bound
and always accepted. -/
theorem exists_accepted? (width : Nat) {n i : Nat} (hi : i < n) (hn : n ≤ Nat.pow 2 width) :
    ∃ word, word < Nat.pow 2 width ∧ accepted? width n word = some i := by
  have hpos : 0 < n := Nat.zero_lt_of_lt hi
  generalize hsize : Nat.pow 2 width = size at hn
  obtain ⟨word, low, hlow, hproduct⟩ : ∃ word low, low < n ∧ word * n = i * size + low := by
    have hdivision := Nat.div_add_mod (i * size + (n - 1)) n
    have hrest := Nat.mod_lt (i * size + (n - 1)) hpos
    refine ⟨(i * size + (n - 1)) / n, n - 1 - (i * size + (n - 1)) % n, by omega, ?_⟩
    rw [Nat.mul_comm]
    omega
  refine ⟨word, ?_, ?_⟩
  · -- the product lies below that of the bound and the number of words
    have hbelow : (i + 1) * size ≤ n * size := Nat.mul_le_mul_right size hi
    rw [Nat.add_mul, Nat.one_mul] at hbelow
    refine Nat.lt_of_mul_lt_mul_right (a := n) ?_
    rw [hproduct, Nat.mul_comm size]
    omega
  · have hmod : (i * size + low) % size = low := by
      rw [Nat.mul_comm, Nat.mul_add_mod]
      exact Nat.mod_eq_of_lt (by omega)
    have hdiv : (i * size + low) / size = i := by
      rw [Nat.mul_comm, Nat.mul_add_div (by omega), Nat.div_eq_of_lt (by omega), Nat.add_zero]
    -- the zone takes in the bound shifted up, less one, and the low half is below the bound
    have hzone : low ≤ acceptanceZone width n := by
      have hshift : n ≤ n * Nat.pow 2 (width - 1 - n.log2) :=
        Nat.le_mul_of_pos_right n (Nat.pow_pos (by decide))
      rw [acceptanceZone]
      omega
    rw [accepted?]
    simp only [hproduct, hsize, hmod, hdiv, if_pos hzone]

/-- A word that is accepted at once is the only one that is taken. -/
theorem yields_firstAccepted {width n i : Nat} {part : UInt64 → Nat} {word : UInt64}
    (h : accepted? width n (part word) = some i) :
    Yields (firstAccepted width n part patience) [word] i := by
  intro rest generator taken
  obtain ⟨tries, htries⟩ : ∃ tries, patience = tries + 1 := ⟨Nat.pow 2 62 - 1, by rw [patience]⟩
  have hnext : WordSource.next (⟨[word] ++ rest, generator, taken⟩ : ScriptedWords) =
      (word, ⟨rest, generator, taken + 1⟩) := rfl
  rw [htries, firstAccepted, hnext]
  simp only [h]
  rfl

/-- Some words choose any number below a bound, if the bound is a word. -/
theorem exists_yields_indexFrom {n i : Nat} (hi : i < n) (hn : n < UInt64.size) :
    ∃ script, Yields (indexFrom n) script i := by
  obtain ⟨word, hword, h⟩ := exists_accepted? 64 hi (Nat.le_of_lt hn)
  refine ⟨[UInt64.ofNat word], yields_firstAccepted ?_⟩
  rw [UInt64.toNat_ofNat_of_lt' hword]
  exact h

/-- Some words choose any position of a list, if its length is a word. -/
theorem exists_yields_positionFrom {n i : Nat} (hi : i < n) (hn : n < UInt64.size) :
    ∃ script, Yields (positionFrom n) script i := by
  by_cases hsmall : n < Nat.pow 2 32
  · -- the upper half of a word makes the choice, so the lower one can be zero
    obtain ⟨half, hhalf, h⟩ := exists_accepted? 32 hi (Nat.le_of_lt hsmall)
    have hpos : 0 < Nat.pow 2 32 := by decide
    have hword : half * Nat.pow 2 32 < UInt64.size := Nat.mul_lt_mul_of_pos_right hhalf hpos
    refine ⟨[UInt64.ofNat (half * Nat.pow 2 32)], fun rest generator taken => ?_⟩
    rw [positionFrom, if_pos hsmall]
    refine yields_firstAccepted ?_ rest generator taken
    rw [upperHalf, UInt64.toNat_ofNat_of_lt' hword, Nat.mul_div_cancel half hpos]
    exact h
  · obtain ⟨script, hscript⟩ := exists_yields_indexFrom hi hn
    refine ⟨script, fun rest generator taken => ?_⟩
    rw [positionFrom, if_neg hsmall]
    exact hscript rest generator taken

/-! ## Computations -/

namespace Draw

/-- Whatever words come after the script, the computation takes just the script and has
that result. -/
def LeadsTo (d : Draw α) (script : List UInt64) (result : α) : Prop := Yields d.run script result

/-- Whether every bound of a number that may be asked for is a word. -/
def Addressable : Draw α → Prop
  | .done _ => True
  | .chance p next => ∀ b, ChanceAllows p b → (next b).Addressable
  | .index n next => n < UInt64.size ∧ ∀ i, i < n → (next i).Addressable
  | .position n next => n < UInt64.size ∧ ∀ i, i < n → (next i).Addressable
  | .between low high next => ∀ word, (next (pointBetween low high word)).Addressable

/-- **Every possible result has a script**, if words are enough for the numbers asked for. -/
theorem exists_script {d : Draw α} (hd : d.Addressable) {result : α} (h : d.Possible result) :
    ∃ script, d.LeadsTo script result := by
  -- each question takes the words that give its answer, and the rest goes on with the others
  induction d with
  | done a =>
    obtain rfl : a = result := h
    exact ⟨[], fun rest generator taken => rfl⟩
  | chance p next ih =>
    obtain ⟨answer, hallows, h⟩ := h
    obtain ⟨first, hfirst⟩ := exists_yields_chanceFrom hallows
    obtain ⟨second, hsecond⟩ := ih answer (hd answer hallows) h
    exact ⟨first ++ second, hfirst.append (g := fun b => (next b).run) hsecond⟩
  | index n next ih =>
    obtain ⟨i, hi, h⟩ := h
    obtain ⟨first, hfirst⟩ := exists_yields_indexFrom hi hd.1
    obtain ⟨second, hsecond⟩ := ih i (hd.2 i hi) h
    exact ⟨first ++ second, hfirst.append (g := fun i => (next i).run) hsecond⟩
  | position n next ih =>
    obtain ⟨i, hi, h⟩ := h
    obtain ⟨first, hfirst⟩ := exists_yields_positionFrom hi hd.1
    obtain ⟨second, hsecond⟩ := ih i (hd.2 i hi) h
    exact ⟨first ++ second, hfirst.append (g := fun i => (next i).run) hsecond⟩
  | between low high next ih =>
    obtain ⟨word, h⟩ := h
    obtain ⟨second, hsecond⟩ := ih _ (hd word) h
    have hfirst : Yields (betweenFrom low high) [word] (pointBetween low high word) :=
      fun rest generator taken => rfl
    exact ⟨[word] ++ second, hfirst.append (g := fun x => (next x).run) hsecond⟩

/-! ## Computations made of others -/

/-- A result needs no words. -/
theorem leadsTo_pure (a : α) : (pure a : Draw α).LeadsTo [] a := fun _ _ _ => rfl

/-- The scripts of the two parts lead through a composed computation, one after the other.
-/
theorem LeadsTo.bind {d : Draw α} {f : α → Draw β} {first second : List UInt64} {a : α} {b : β}
    (hd : d.LeadsTo first a) (hf : (f a).LeadsTo second b) :
    (d.bind f).LeadsTo (first ++ second) b := by
  have hrun : (d.bind f).run = fun s : ScriptedWords => (f (d.run s).1).run (d.run s).2 :=
    funext fun s => run_bind d f s
  rw [LeadsTo, hrun]
  exact Yields.append (g := fun a => (f a).run) hd hf

/-- What ends the first step ends all trying. -/
theorem LeadsTo.retry {τ : Type} {step : τ → Draw (α ⊕ τ)} {giveUp : τ → α} {t : τ}
    {script : List UInt64} {result : α} (h : (step t).LeadsTo script (.inl result)) {tries : Nat}
    (htries : 0 < tries) : (Draw.retry step giveUp tries t).LeadsTo script result := by
  obtain ⟨tries, rfl⟩ : ∃ more, tries = more + 1 := ⟨tries - 1, by omega⟩
  rw [← List.append_nil script]
  exact LeadsTo.bind h (leadsTo_pure result)

/-- Words are enough for a composed computation if they are for its parts. -/
theorem addressable_bind {d : Draw α} {f : α → Draw β} :
    (d.bind f).Addressable ↔ d.Addressable ∧ ∀ a, d.Possible a → (f a).Addressable := by
  induction d with
  | done a => simp [Draw.bind, Possible, Addressable]
  | chance p next ih => simp only [Draw.bind, Possible, Addressable, ih]; grind
  | index n next ih => simp only [Draw.bind, Possible, Addressable, ih]; grind
  | position n next ih => simp only [Draw.bind, Possible, Addressable, ih]; grind
  | between low high next ih => simp only [Draw.bind, Possible, Addressable, ih]; grind

theorem addressable_flip (p : Float) : (flip p).Addressable := fun _ _ => trivial

/-- Words are enough to choose among the members of a list that is not too long. -/
theorem addressable_member {xs : List α} (h : xs ≠ []) (hlength : xs.length < UInt64.size) :
    (member xs h).Addressable :=
  ⟨hlength, fun _ _ => trivial⟩

/-- Words are enough to choose among the elements of a list that is not too long. -/
theorem addressable_element? {xs : List α} (hlength : xs.length < UInt64.size) :
    (element? xs).Addressable := by
  cases xs with
  | nil => trivial
  | cons x rest => exact ⟨hlength, fun _ _ => trivial⟩

end Draw

end SymbolicRegression
