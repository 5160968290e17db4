/-
# Expressions over the standard operators

Protection carries over from operators to expressions, however deep.  An expression
over the standard operators therefore has finite values on every dataset that has its
variables, and an individual with it can be invalid for one reason only: the squared
differences to the targets add up to more than a double can hold.

* `Dataset.isFinite_sample` : the values of the variables are finite;
* `Expr.isFinite_value` : so is what an expression over protected operators makes of them;
* `Expr.evaluate_of_isProtected` : evaluation succeeds, with finite values;
* `Individual.Sound.isValid_iff_isFinite_total` : when an individual with finite
  predictions is valid;
* `Individual.isOver_populate` : what a random search puts in.

Main statement:

* `Individual.standard_stays_finite` : **expressions over the standard operators always
  have finite values.**
-/
import SymbolicRegression.Proofs.Evaluation
import SymbolicRegression.Proofs.Protection
import SymbolicRegression.Proofs.Restoration
import SymbolicRegression.Proofs.SquaredError

namespace SymbolicRegression

/-! ## Values -/

/-- The values of the variables at a sample are finite. -/
theorem Dataset.isFinite_sample (d : Dataset) (j index : Nat) :
    (d.sample j index).isFinite = true := by
  unfold sample
  cases hvalue : (d.feature? index).bind (·[j]?) with
  | none => decide
  | some value =>
    obtain ⟨row, hrow, hmem⟩ := Option.bind_eq_some_iff.1 hvalue
    exact d.features_finite row (List.mem_of_getElem? hrow) value (List.mem_of_getElem? hmem)

namespace Expr

variable {ops : OperatorSet} {e : Expr} {d : Dataset}

/-- **Protection carries over to expressions.** -/
theorem isFinite_value (hops : ops.IsProtected) (hover : e.IsOver ops) {assignment : Nat → Float}
    (hassignment : ∀ index, (assignment index).isFinite = true) :
    (e.value assignment).isFinite = true := by
  induction e with
  | binary op left right ihl ihr =>
    obtain ⟨hop, hleft, hright⟩ := isOver_binary.1 hover
    exact hops.binary op hop _ _ (ihl hleft) (ihr hright)
  | unary op operand ih =>
    obtain ⟨hop, hoperand⟩ := isOver_unary.1 hover
    exact hops.unary op hop _ (ih hoperand)
  | var index => exact hassignment index
  | const value => exact isOver_const.1 hover

/-- An expression over protected operators has finite values, one for each sample, on
every dataset that has its variables. -/
theorem evaluate_of_isProtected (hops : ops.IsProtected) (hover : e.IsOver ops)
    (hvars : ∀ index ∈ e.vars, index < d.variableCount) :
    ∃ values, e.evaluate d = .ok values ∧ values.length = d.sampleCount ∧ AllFinite values := by
  refine ⟨e.values d, evaluate_eq_ok_iff.2 ⟨hvars, rfl⟩, length_values d e, ?_⟩
  intro v hv
  rw [values, List.mem_map] at hv
  obtain ⟨j, -, rfl⟩ := hv
  exact isFinite_value hops hover (d.isFinite_sample j)

end Expr

/-! ## A sample -/

/-- Functions that are right at one point each, which is one for the logarithms and zero
for the others, and constant. -/
def Elementary.pointwise : Elementary where
  exp := fun _ => 1.0
  log := fun _ => 0.0
  log2 := fun _ => 0.0
  log10 := fun _ => 0.0
  sin := fun _ => 0.0
  cos := fun _ => 1.0
  tan := fun _ => 0.0
  arcsin := fun _ => 0.0
  arccos := fun _ => 1.5707963267948966
  arctan := fun _ => 0.0
  sinh := fun _ => 0.0
  cosh := fun _ => 1.0
  tanh := fun _ => 0.0
  cbrt := fun _ => 0.0
  floor := fun _ => 0.0
  pow := fun _ _ => 1.0

theorem tame_pointwise : Elementary.pointwise.Tame := by
  have hzero : (0.0 : Float).isFinite = true := by decide
  have hone : (1.0 : Float).isFinite = true := by decide
  have hquarter : (1.5707963267948966 : Float).isFinite = true := by decide +kernel
  exact
    { sin := fun _ _ => hzero
      cos := fun _ _ => hone
      arctan := fun _ _ => hzero
      tanh := fun _ _ => hzero
      cbrt := fun _ _ => hzero
      arcsin := fun _ _ _ => hzero
      arccos := fun _ _ _ => hquarter
      log := fun _ _ _ => hzero
      log2 := fun _ _ _ => hzero
      log10 := fun _ _ _ => hzero }

/-! ## Individuals -/

namespace Individual

variable {i : Individual} {e : Expr} {d : Dataset}

/-- A protected expression has predictions. -/
theorem predict_of_isProtected {ops : OperatorSet} (hops : ops.IsProtected)
    (hroot : i.root = some e) (hover : e.IsOver ops)
    (hvars : ∀ index ∈ e.vars, index < d.variableCount) :
    ∃ predictions, i.predict d = .ok predictions := by
  obtain ⟨values, heval, -, hfinite⟩ := Expr.evaluate_of_isProtected hops hover hvars
  exact ⟨values, predict_eq_ok_iff.2 ⟨e, hroot, heval, hfinite⟩⟩

/-- The expression of a sound individual has only variables of its dataset. -/
theorem Sound.vars_lt (hi : i.Sound) (hroot : i.root = some e) :
    ∀ index ∈ e.vars, index < i.dataset.variableCount := by
  intro index hv
  exact (hi.admits e hroot).var_lt index (Expr.mem_vars_iff.1 hv)

/-- **When an individual with finite predictions is valid**: exactly when the squared
differences have a finite sum. -/
theorem Sound.isValid_iff_isFinite_total (hi : i.Sound) {predictions : List Float}
    (hpredict : i.predict i.dataset = .ok predictions) :
    i.isValid = true ↔
      (total (squaredErrors i.dataset.targets predictions)).isFinite = true := by
  obtain ⟨root, hroot, heval, hfinite⟩ := predict_eq_ok_iff.1 hpredict
  rw [← fits_iff_isFinite_total heval hfinite, hi.isValid_iff]
  constructor
  · rintro ⟨predictions', error, root', hroot', hfit⟩
    rw [hroot, Option.some.injEq] at hroot'
    subst hroot'
    have hsame : predictions' = predictions := by
      have := hfit.evaluate_eq.symm.trans heval
      injection this
    exact ⟨error, hsame ▸ hfit⟩
  · rintro ⟨error, hfit⟩
    exact ⟨predictions, error, root, hroot, hfit⟩

/-- An individual with finite predictions is invalid only where the squared differences
add up to infinity. -/
theorem Sound.total_eq_of_not_isValid (hi : i.Sound) {predictions : List Float}
    (hpredict : i.predict i.dataset = .ok predictions) (hvalid : i.isValid = false) :
    total (squaredErrors i.dataset.targets predictions) = 1.0 / 0.0 := by
  obtain ⟨root, -, heval, hfinite⟩ := predict_eq_ok_iff.1 hpredict
  have hlength : predictions.length = i.dataset.targets.length := Expr.length_of_evaluate heval
  have hsigned := signed_total_squaredErrors i.dataset.targets_ne_nil hlength
    i.dataset.targets_finite hfinite
  apply eq_invalidFitness hsigned
  rw [← Bool.not_eq_true, ← hi.isValid_iff_isFinite_total hpredict, hvalid]
  decide

/-- What a random search puts in is over the operators, if the palette is finite. -/
theorem isOver_populate (hi : i.Sound) (hfinite : AllFinite i.primitives.constants.values)
    {σ : Type} [WordSource σ] (s : σ) :
    ∃ root, (i.populate.run s).1.individual.root = some root ∧
      root.IsOver i.primitives.operators := by
  obtain ⟨root, hroot, hrun⟩ := possible_populate_run hi.valid s
  refine ⟨root, ?_, ?_⟩
  · rw [hrun, root_rescore]
  · intro symbol hs
    exact covers_of_offers hfinite ((possible_randomExpr hroot).2 symbol hs)

/-- **Expressions over the standard operators always have finite values**, however deep
they are and whatever finite constants they have, on every dataset that has their
variables; so there are predictions, and a reachable individual with such an expression
is invalid only where the squared differences add up to infinity.  Over the standard
operators, with a finite palette, a random search puts in such expressions. -/
theorem standard_stays_finite {lib : Elementary} (hlib : lib.Tame) :
    (∀ (e : Expr) (d : Dataset), e.IsOver (.standard lib) →
      (∀ index ∈ e.vars, index < d.variableCount) →
      (∃ values, e.evaluate d = .ok values ∧ values.length = d.sampleCount ∧ AllFinite values) ∧
      ∀ i : Individual, i.root = some e → ∃ predictions, i.predict d = .ok predictions) ∧
    (∀ (i : Individual) (e : Expr), Reachable i → i.root = some e → e.IsOver (.standard lib) →
      ∃ predictions, i.predict i.dataset = .ok predictions ∧
        (i.isValid = false → total (squaredErrors i.dataset.targets predictions) = 1.0 / 0.0)) ∧
    ∀ i : Individual, Reachable i → i.primitives.operators = .standard lib →
      AllFinite i.primitives.constants.values → ∀ {σ : Type} [WordSource σ] (s : σ),
      ∃ e, (i.populate.run s).1.individual.root = some e ∧ e.IsOver (.standard lib) := by
  have hops := isProtected_standard hlib
  refine ⟨?_, ?_, ?_⟩
  · intro e d hover hvars
    refine ⟨Expr.evaluate_of_isProtected hops hover hvars, ?_⟩
    intro i hroot
    exact predict_of_isProtected hops hroot hover hvars
  · intro i e hi hroot hover
    have hsound := hi.sound
    obtain ⟨predictions, hpredict⟩ :=
      predict_of_isProtected hops hroot hover (hsound.vars_lt hroot)
    refine ⟨predictions, hpredict, ?_⟩
    intro hvalid
    exact hsound.total_eq_of_not_isValid hpredict hvalid
  · intro i hi hoperators hfinite σ _ s
    obtain ⟨e, hroot, hover⟩ := isOver_populate hi.sound hfinite s
    rw [hoperators] at hover
    exact ⟨e, hroot, hover⟩

/-- The sine of the protected logarithm of the only variable. -/
def sineOfLog (lib : Elementary) : Expr :=
  .unary ⟨"sin", lib.sin⟩ (.unary ⟨"protected_log", Kernel.log lib⟩ (.var 0))

/-- One sample, at which the variable is one and so its logarithm zero. -/
def onePoint : Dataset where
  features := [[1.0]]
  targets := [2.0]
  features_ne_nil := by simp
  targets_ne_nil := by simp
  rectangular := by simp
  features_finite := by decide
  targets_finite := by decide

theorem standard_stays_finite_sineOfLog :
    Elementary.pointwise.Tame ∧ (sineOfLog .pointwise).IsOver (.standard .pointwise) ∧
      ∃ values, (sineOfLog .pointwise).evaluate onePoint = .ok values ∧ values.length = 1 ∧
        AllFinite values := by
  have hover : (sineOfLog .pointwise).IsOver (.standard .pointwise) := by
    refine Expr.isOver_unary.2 ⟨?_, Expr.isOver_unary.2 ⟨?_, Expr.isOver_var⟩⟩
    · simp [OperatorSet.standard, standardUnary]
    · simp [OperatorSet.standard, standardUnary]
  have hvars : ∀ index ∈ (sineOfLog .pointwise).vars, index < onePoint.variableCount := by decide
  obtain ⟨hvalues, -⟩ :=
    (standard_stays_finite tame_pointwise).1 (sineOfLog .pointwise) onePoint hover hvars
  exact ⟨tame_pointwise, hover, hvalues⟩

end Individual

end SymbolicRegression
