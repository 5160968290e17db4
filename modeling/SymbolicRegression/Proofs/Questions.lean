/-
# Runs that do not break off

A run can be cut short.  A question may make no sense: a probability that is none, a choice
among nothing.  An answer may lie beyond the end of the list that it chooses from, and
counting may leave the words that a machine counts with.  For the individuals of a
search none of this happens: what is asked was made sure of when their operators, their
palette, their dataset and their settings were built.

* `Draw.attempt` : a run that checks every question and every answer, and may break off;
* `Draw.RunsThrough` : a computation of which no run breaks off;
* `Draw.WellPosed.runsThrough` : asking only sensible questions is enough;
* `Individual.growFrom` : generation that counts the depth up and checks the counter;
* `Draw.getElem?_of_run_member` : what is chosen from a list stands in it at the index drawn;
* `Individual.growFrom_eq` : the counter never overflows;
* `Individual.getElem?_of_run_randomMutation`, `Individual.run_mutate` : the index that a
  mutation chooses its way by;
* `Individual.length_le_of_mem_locations` : positions lie within the depth limit.

Main statement:

* `Individual.runs_through` : **no operation on an individual of a search breaks off.**
-/
import SymbolicRegression.Proofs.Reachable

namespace SymbolicRegression

namespace Draw

variable {α : Type}

/-! ## Checked runs -/

/-- The result of a run that breaks off at a question that makes no sense, and at an answer
that is not below its bound. -/
def attempt {σ : Type} [WordSource σ] : Draw α → σ → Option (α × σ)
  | .done a, s => some (a, s)
  | .chance p next, s =>
      if 0.0 ≤ p ∧ p ≤ 1.0 then
        let (b, s) := chanceFrom p s
        (next b).attempt s
      else none
  | .index n next, s =>
      if 0 < n then
        let (i, s) := indexFrom n s
        if i < n then (next i).attempt s else none
      else none
  | .position n next, s =>
      if 0 < n then
        let (i, s) := positionFrom n s
        if i < n then (next i).attempt s else none
      else none
  | .between low high next, s =>
      if low ≤ high then
        let (x, s) := betweenFrom low high s
        (next x).attempt s
      else none

/-- No run breaks off, whatever the words: each ends in the result of the unchecked run. -/
def RunsThrough (d : Draw α) : Prop :=
  ∀ {σ : Type} [WordSource σ] (s : σ), d.attempt s = some (d.run s)

/-- **Sensible questions are enough.**  A computation that asks nothing else runs through:
the answers are made from words in such a way that they are below their bounds. -/
theorem WellPosed.runsThrough {d : Draw α} (h : d.WellPosed) : d.RunsThrough := by
  intro σ _ s
  induction d generalizing s with
  | done a => rfl
  | chance p next ih =>
    have hnext := ih _ (h.2 _ (chanceAllows_chanceFrom p s)) (chanceFrom p s).2
    rw [attempt, if_pos h.1]
    exact hnext
  | index n next ih =>
    have hbelow : (indexFrom n s).1 < n := indexFrom_lt h.1 s
    have hnext := ih _ (h.2 _ hbelow) (indexFrom n s).2
    rw [attempt, if_pos h.1]
    simp only [if_pos hbelow]
    exact hnext
  | position n next ih =>
    have hbelow : (positionFrom n s).1 < n := positionFrom_lt h.1 s
    have hnext := ih _ (h.2 _ hbelow) (positionFrom n s).2
    rw [attempt, if_pos h.1]
    simp only [if_pos hbelow]
    exact hnext
  | between low high next ih =>
    have hnext := ih _ (h.2 (WordSource.next s).1) (WordSource.next s).2
    rw [attempt, if_pos h.1]
    exact hnext

/-- A question for yes or no is answered from the next words. -/
theorem run_flip (p : Float) {σ : Type} [WordSource σ] (s : σ) :
    (flip p).run s = chanceFrom p s := rfl

/-- A member of a list is chosen by an index that lies within the list. -/
theorem getElem?_of_run_member {xs : List α} (h : xs ≠ []) {σ : Type} [WordSource σ] (s : σ) :
    xs[(indexFrom xs.length s).1]? = some ((member xs h).run s).1 := by
  have hbelow : (indexFrom xs.length s).1 < xs.length := indexFrom_lt (List.length_pos_iff.2 h) s
  show xs[(indexFrom xs.length s).1]? =
    some (xs[(indexFrom xs.length s).1]?.getD (xs.head h))
  rw [List.getElem?_eq_getElem hbelow, Option.getD_some]

end Draw

namespace Individual

variable {i : Individual}

/-! ## Counting the depth -/

/-- Generation that counts the depth of positions up.  It breaks off, with nothing, where
the depth of an operand is not a word. -/
def growFrom (i : Individual) (current maxDepth : Nat) : Draw (Option Expr) :=
  if current < maxDepth then do
    if ← Draw.flip i.settings.branchProbability then
      if wordBound ≤ current + 1 then return none
      else if ← Draw.flip i.settings.binaryProbability then
        let op ← i.primitives.operators.randomBinary
        let left? ← i.growFrom (current + 1) maxDepth
        let right? ← i.growFrom (current + 1) maxDepth
        return do
          let left ← left?
          let right ← right?
          return .binary op left right
      else
        let op ← i.primitives.operators.randomUnary
        let operand? ← i.growFrom (current + 1) maxDepth
        return operand?.map (.unary op)
    else some <$> i.randomLeaf
  else some <$> i.randomLeaf
termination_by maxDepth - current

/-- **The counter never overflows.**  Where the greatest depth is a word, counting up with
checks gives what counting the levels down gives. -/
theorem growFrom_eq (i : Individual) (current : Nat) {maxDepth : Nat} (h : maxDepth < wordBound) :
    i.growFrom current maxDepth = some <$> i.generate current maxDepth := by
  unfold generate
  -- the induction is on the levels that are left, which the counter reaches from above
  induction hlevels : maxDepth - current generalizing current with
  | zero => rw [growFrom, if_neg (by omega), randomExpr]
  | succ levels ih =>
    have hdeeper : i.growFrom (current + 1) maxDepth = some <$> i.randomExpr levels :=
      ih (current + 1) (by omega)
    rw [growFrom, if_pos (by omega), randomExpr]
    simp only [if_neg (show ¬ wordBound ≤ current + 1 by omega), hdeeper, map_bind, bind_map_left,
      apply_ite (some <$> ·), map_pure]
    rfl

/-! ## Indices -/

section Indices

variable {σ : Type} [WordSource σ] {s : σ}

/-- With the rate of the settings the way is to replace a subtree. -/
theorem run_randomMutation_of_yes (h : (chanceFrom i.settings.subtreeMutationRate s).1 = true) :
    (i.randomMutation.run s).1 = .subtree := by
  rw [randomMutation, Draw.bind_eq, Draw.run_bind, Draw.run_flip, h]
  rfl

/-- **Otherwise the way stands in the list of the secondary ones**, at the index that is drawn
below the length of the list. -/
theorem getElem?_of_run_randomMutation
    (h : (chanceFrom i.settings.subtreeMutationRate s).1 = false) :
    Mutation.secondary[(indexFrom Mutation.secondary.length
        (chanceFrom i.settings.subtreeMutationRate s).2).1]? =
      some (i.randomMutation.run s).1 := by
  have hrun : (i.randomMutation.run s).1 =
      ((Draw.member Mutation.secondary (by decide)).run
        (chanceFrom i.settings.subtreeMutationRate s).2).1 := by
    rw [randomMutation, Draw.bind_eq, Draw.run_bind, Draw.run_flip, h]
    rfl
  rw [hrun]
  exact Draw.getElem?_of_run_member _ _

/-- A mutation tells the way that was chosen, and goes that way. -/
theorem run_mutate (i : Individual) (s : σ) :
    let way := i.randomMutation.run s
    (i.mutate.run s).1 = (way.1, ((i.applyMutation way.1).run way.2).1) := by
  rw [mutate]
  simp only [Draw.bind_eq, Draw.run_bind]
  rfl

/-- A leaf that is to be a variable has the index that is drawn below their number. -/
theorem run_randomLeaf_of_yes (h : (chanceFrom i.settings.variableProbability s).1 = true) :
    (i.randomLeaf.run s).1 = .var (indexFrom i.dataset.variableCount
      (chanceFrom i.settings.variableProbability s).2).1 := by
  rw [randomLeaf, Draw.bind_eq, Draw.run_bind, Draw.run_flip, h]
  rfl

/-- Any other leaf is a constant of the palette. -/
theorem run_randomLeaf_of_no (h : (chanceFrom i.settings.variableProbability s).1 = false) :
    (i.randomLeaf.run s).1 = .const (i.primitives.constants.random.run
      (chanceFrom i.settings.variableProbability s).2).1 := by
  rw [randomLeaf, Draw.bind_eq, Draw.run_bind, Draw.run_flip, h]
  simp only [Bool.false_eq_true, if_false]
  rw [Draw.bind_eq, Draw.run_bind]
  rfl

end Indices

/-! ## Measures -/

/-- A position lies within the depth limit, so the levels that are left below it can be told. -/
theorem length_le_of_mem_locations (hi : i.Sound) {path : Path} (h : path ∈ i.locations) :
    path.length ≤ i.settings.maxDepth := by
  obtain ⟨root, e, hroot, he⟩ := exists_get?_of_mem_locations h
  obtain ⟨_, hsplice⟩ := Expr.exists_splice_of_get? he e
  have hdepth := (hi.admits root hroot).depth_le
  have hpath := hsplice.length_add_height_le
  have hheight := e.height_pos
  rw [Expr.depth] at hdepth
  omega

/-! ## Main statement -/

/-- **No operation on an individual of a search breaks off.**  Whatever the words, generation
between any two depths, filling, mutation in any way and recombination with any other
individual run through: each probability is one, each choice is among something, and each
answer is below its bound.  The counter of generation does not overflow.

The indices that are drawn lie within the lists that they index: what stands there is the
operator, the constant or the secondary way that is chosen, and a variable is one of the
dataset.  Every expression has a level, so its depth can be told from its height, and no
position is deeper than the settings allow. -/
theorem runs_through (hi : Reachable i) :
    (∀ rootDepth maxDepth, (i.generate rootDepth maxDepth).RunsThrough ∧
      (maxDepth < wordBound →
        i.growFrom rootDepth maxDepth = some <$> i.generate rootDepth maxDepth)) ∧
    (i.populate.RunsThrough ∧ (∀ way, (i.applyMutation way).RunsThrough) ∧
      i.mutate.RunsThrough ∧ ∀ other, (i.recombine other).RunsThrough) ∧
    (∀ {σ : Type} [WordSource σ] (s : σ),
      let ops := i.primitives.operators
      let constants := i.primitives.constants
      let subtree := chanceFrom i.settings.subtreeMutationRate s
      let leaf := chanceFrom i.settings.variableProbability s
      let way := i.randomMutation.run s
      ops.unary[(indexFrom ops.unary.length s).1]? = some (ops.randomUnary.run s).1 ∧
      ops.binary[(indexFrom ops.binary.length s).1]? = some (ops.randomBinary.run s).1 ∧
      constants.values[(indexFrom constants.values.length s).1]? =
        some (constants.random.run s).1 ∧
      (subtree.1 = true → way.1 = .subtree) ∧
      (subtree.1 = false →
        Mutation.secondary[(indexFrom Mutation.secondary.length subtree.2).1]? = some way.1) ∧
      (i.mutate.run s).1 = (way.1, ((i.applyMutation way.1).run way.2).1) ∧
      (leaf.1 = true → ∃ index < i.dataset.variableCount,
        index = (indexFrom i.dataset.variableCount leaf.2).1 ∧
        (i.randomLeaf.run s).1 = .var index) ∧
      (leaf.1 = false → (i.randomLeaf.run s).1 = .const (constants.random.run leaf.2).1)) ∧
    (∀ root : Expr, root.depth + 1 = root.height) ∧
    ∀ path ∈ i.locations, path.length ≤ i.settings.maxDepth := by
  have hsound := hi.sound
  have hvalid := hsound.valid
  refine ⟨?_, ⟨?_, ?_, ?_, ?_⟩, ?_, ?_, ?_⟩
  · intro rootDepth maxDepth
    exact ⟨(wellPosed_randomExpr hvalid _).runsThrough, growFrom_eq i rootDepth⟩
  · exact (wellPosed_populate hvalid).runsThrough
  · intro way
    exact (wellPosed_applyMutation hvalid way).runsThrough
  · exact (wellPosed_mutate hvalid).runsThrough
  · intro other
    exact (wellPosed_recombine i other).runsThrough
  · intro σ _ s ops constants subtree leaf way
    have hleaf (h : leaf.1 = true) : ∃ index < i.dataset.variableCount,
        index = (indexFrom i.dataset.variableCount leaf.2).1 ∧
        (i.randomLeaf.run s).1 = .var index :=
      ⟨_, indexFrom_lt i.dataset.variableCount_pos leaf.2, rfl, run_randomLeaf_of_yes h⟩
    exact ⟨Draw.getElem?_of_run_member ops.unary_ne_nil s,
      Draw.getElem?_of_run_member ops.binary_ne_nil s,
      Draw.getElem?_of_run_member constants.values_ne_nil s,
      run_randomMutation_of_yes, getElem?_of_run_randomMutation, run_mutate i s,
      hleaf, run_randomLeaf_of_no⟩
  · intro root
    have hheight := root.height_pos
    rw [Expr.depth]
    omega
  · intro path hpath
    exact length_le_of_mem_locations hsound hpath

/-- Mutations of the parabola run through, and its two positions are not too deep. -/
theorem runs_through_parabola :
    Reachable parabola ∧ parabola.mutate.RunsThrough ∧
      ∀ path ∈ parabola.locations, path.length ≤ 6 := by
  obtain ⟨-, ⟨-, -, hmutate, -⟩, -, -, hlocations⟩ := runs_through reachable_parabola
  exact ⟨reachable_parabola, hmutate, hlocations⟩

end Individual

end SymbolicRegression
