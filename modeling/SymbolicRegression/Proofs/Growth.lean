/-
# How random expressions grow

The limits and probabilities of the settings, as they show in what random generation
gives: how high it is, what it is built from, and what it cannot be where a probability is
one or zero.

* `Individual.Grown.isLeaf_of_branch`, `Individual.Grown.not_mem_of_not_allows` : what a
  probability that decides its question rules out;
* `Individual.grown_run` : what a run of generation gives can grow.

Main statement:

* `Individual.generate_honours_limits` : **generation keeps to its levels, to what is
  offered, and to the probabilities.**
-/
import SymbolicRegression.Proofs.Chance
import SymbolicRegression.Proofs.Reachable

namespace SymbolicRegression

namespace Individual

variable {i : Individual} {levels : Nat} {e : Expr}

/-! ## Probabilities that decide -/

namespace Grown

/-- Without a chance for an operator nothing but a leaf grows. -/
theorem isLeaf_of_branch (h : i.Grown levels e)
    (hbranch : ¬ ChanceAllows i.settings.branchProbability true) : e.isLeaf = true := by
  cases h with
  | var _ _ _ => rfl
  | const _ _ _ => rfl
  | binary hallows _ _ _ => exact absurd hallows.1 hbranch
  | unary hallows _ _ => exact absurd hallows.1 hbranch

/-- A kind of symbol that the probabilities do not allow does not grow. -/
theorem not_mem_of_not_allows (h : i.Grown levels e) {symbol : Symbol}
    (hsymbol : ¬ i.Allows symbol) : symbol ∉ e.symbols := by
  intro hs
  exact hsymbol (h.offers_and_allows hs).2

end Grown

/-- What a run of generation gives can grow on the levels that are left. -/
theorem grown_run (hvalid : i.settings.Valid) (rootDepth maxDepth : Nat) {σ : Type}
    [WordSource σ] (s : σ) :
    i.Grown (maxDepth - rootDepth) ((i.generate rootDepth maxDepth).run s).1 := by
  have hrun : (i.randomExpr (maxDepth - rootDepth)).Possible
      ((i.generate rootDepth maxDepth).run s).1 :=
    Draw.possible_run (wellPosed_randomExpr hvalid _) s
  exact possible_randomExpr_iff.1 hrun

/-! ## Main statement -/

/-- **Generation honours its limits.**  With valid settings, between any two depths and
whatever the words, an expression is generated that has no more levels below its root than
lie between the depths, none where the first is not above the second, and only operators,
variables and constants that the individual offers.  Where an operator is certain, every
leaf stands on the last level, and where none can be, the expression is a leaf.  Where a
binary operator is certain there are no unary ones, and where a variable is certain there
are no constants; and the other way round where there can be none. -/
theorem generate_honours_limits (hvalid : i.settings.Valid) (rootDepth maxDepth : Nat)
    {σ : Type} [WordSource σ] (s : σ) :
    let e := ((i.generate rootDepth maxDepth).run s).1
    e.height ≤ maxDepth - rootDepth + 1 ∧
    (∀ symbol ∈ e.symbols, i.Offers symbol) ∧
    ((i.settings.branchProbability == 1.0) = true → ∀ path leaf,
      e.get? path = some leaf → leaf.isLeaf = true → path.length = maxDepth - rootDepth) ∧
    ((i.settings.branchProbability == 0.0) = true → e.isLeaf = true) ∧
    ((i.settings.binaryProbability == 1.0) = true → ∀ op, Symbol.unary op ∉ e.symbols) ∧
    ((i.settings.binaryProbability == 0.0) = true → ∀ op, Symbol.binary op ∉ e.symbols) ∧
    ((i.settings.variableProbability == 1.0) = true → ∀ value, Symbol.const value ∉ e.symbols) ∧
    ((i.settings.variableProbability == 0.0) = true → ∀ index, Symbol.var index ∉ e.symbols) := by
  intro e
  have hgrown : i.Grown (maxDepth - rootDepth) e := grown_run hvalid rootDepth maxDepth s
  clear_value e
  refine ⟨hgrown.height_le, ?_, ?_, ?_, ?_, ?_, ?_, ?_⟩
  · intro symbol hs
    exact (hgrown.offers_and_allows hs).1
  · intro hone path leaf hget hleaf
    exact hgrown.length_eq_of_isLeaf (not_chanceAllows_false hone) hget hleaf
  · intro hzero
    exact hgrown.isLeaf_of_branch (not_chanceAllows_true hzero)
  · intro hone op
    exact hgrown.not_mem_of_not_allows fun hallows => not_chanceAllows_false hone hallows.2
  · intro hzero op
    exact hgrown.not_mem_of_not_allows fun hallows => not_chanceAllows_true hzero hallows.2
  · intro hone value
    exact hgrown.not_mem_of_not_allows (not_chanceAllows_false hone)
  · intro hzero index
    exact hgrown.not_mem_of_not_allows (not_chanceAllows_true hzero)

/-- With a certain operator and no chance for a binary one, the leaves that grow between
depths one and three stand two levels below the root, under unary operators only. -/
theorem generate_honours_limits_parabola :
    let i : Individual :=
      { parabola with settings := { branchProbability := 1.0, binaryProbability := 0.0 } }
    i.settings.Valid ∧ ∀ s : Xoshiro256,
      let e := ((i.generate 1 3).run s).1
      e.height ≤ 3 ∧ (∀ path leaf, e.get? path = some leaf → leaf.isLeaf = true → path.length = 2) ∧
        ∀ op, Symbol.binary op ∉ e.symbols := by
  intro i
  have hvalid : i.settings.Valid := Settings.fault?_eq_none_iff.1 (by decide)
  refine ⟨hvalid, ?_⟩
  intro s e
  obtain ⟨hheight, -, hbranch, -, -, hbinary, -⟩ := generate_honours_limits hvalid 1 3 s
  exact ⟨hheight, hbranch (by decide), hbinary (by decide)⟩

end Individual

end SymbolicRegression
