/-
# What evaluation computes

Evaluation works on all samples at once, on lists that it changes in place, and
checks lengths and variables on the way.  What it computes is the value of the
expression at each sample by itself, and the only thing that can go wrong is a
variable that the dataset does not have.

* `Dataset.sample` : the values of the variables at one sample;
* `Expr.vars` : the variables of an expression, from left to right;
* `Expr.unknownVar?` : the first of them that a dataset does not have;
* `Expr.evaluate_eq` : evaluation in one equation;
* `Individual.predict_ne_shapeMismatch`, `Individual.score_ne_shapeMismatch` : operands
  always have the same shape.

Main statement:

* `Expr.evaluate_pointwise` : when there are values, which ones, and what happens otherwise.
-/
import SymbolicRegression.Proofs.Scoring

namespace SymbolicRegression

/-! ## Samples -/

namespace Dataset

/-- The values of the variables at sample `j`; zero where there is no such variable. -/
def sample (d : Dataset) (j : Nat) (index : Nat) : Float :=
  ((d.feature? index).bind (·[j]?)).getD 0.0

/-- A sample shows the values of the variables that there are. -/
theorem sample_eq {d : Dataset} {index j : Nat} {row : List Float}
    (hrow : d.feature? index = some row) (hj : j < row.length) : d.sample j index = row[j] := by
  rw [sample, hrow, Option.bind_some, List.getElem?_eq_getElem hj, Option.getD_some]

/-- The values of a variable, read off the samples one after the other. -/
theorem eq_map_sample {d : Dataset} {index : Nat} {row : List Float}
    (h : d.feature? index = some row) :
    row = (List.range d.sampleCount).map fun j => d.sample j index := by
  have hlength : row.length = d.sampleCount := length_of_feature? h
  apply List.ext_getElem
  · rw [List.length_map, List.length_range, hlength]
  · intro j hj _
    rw [List.getElem_map, List.getElem_range, sample_eq h hj]

end Dataset

namespace Expr

/-! ## Variables from left to right -/

/-- The variables of an expression, from left to right. -/
def vars : Expr → List Nat
  | .binary _ left right => left.vars ++ right.vars
  | .unary _ operand => operand.vars
  | .var index => [index]
  | .const _ => []

theorem mem_vars_iff {e : Expr} {index : Nat} :
    index ∈ e.vars ↔ Symbol.var index ∈ e.symbols := by
  induction e with
  | binary op left right ihl ihr => rw [vars, List.mem_append, ihl, ihr, var_mem_symbols_binary]
  | unary op operand ih => rw [vars, ih, var_mem_symbols_unary]
  | var i => simp [vars, symbols]
  | const value => simp [vars, symbols]

/-- The first variable, from left to right, that a dataset does not have. -/
def unknownVar? (d : Dataset) (e : Expr) : Option Nat :=
  e.vars.find? fun index => d.variableCount ≤ index

theorem unknownVar?_eq_none_iff {d : Dataset} {e : Expr} :
    e.unknownVar? d = none ↔ ∀ index ∈ e.vars, index < d.variableCount := by
  rw [unknownVar?, List.find?_eq_none]
  simp only [decide_eq_true_eq, Nat.not_le]

/-- The left operand is searched before the right one. -/
theorem unknownVar?_binary (d : Dataset) (op : BinaryOperator) (left right : Expr) :
    (Expr.binary op left right).unknownVar? d = (left.unknownVar? d).or (right.unknownVar? d) :=
  List.find?_append

/-! ## Values sample by sample -/

/-- The values of an expression, each computed from one sample. -/
def values (d : Dataset) (e : Expr) : List Float :=
  (List.range d.sampleCount).map fun j => e.value (d.sample j)

theorem length_values (d : Dataset) (e : Expr) : (e.values d).length = d.sampleCount := by
  rw [values, List.length_map, List.length_range]

theorem onBatch_values (d : Dataset) (op : UnaryOperator) (operand : Expr) :
    op.onBatch (operand.values d) = (Expr.unary op operand).values d := by
  rw [UnaryOperator.onBatch, values, List.map_map]
  rfl

/-- Operands that are computed sample by sample are as long as each other, so every
left value finds its partner. -/
theorem onBatch_values_values (d : Dataset) (op : BinaryOperator) (left right : Expr) :
    op.onBatch (left.values d) (right.values d) = (Expr.binary op left right).values d := by
  have hlength : (left.values d).length = (right.values d).length := by
    rw [length_values, length_values]
  rw [BinaryOperator.onBatch_eq_zipWith op hlength]
  rw [values, values, List.zipWith_map, List.zipWith_self]
  rfl

/-- **Evaluation in one equation.**  An expression with a variable that the dataset
does not have fails with the first such variable; any other one has the values that
it has sample by sample. -/
theorem evaluate_eq (d : Dataset) (e : Expr) :
    e.evaluate d =
      match e.unknownVar? d with
      | some index => .error (.unknownVariable index d.variableCount)
      | none => .ok (e.values d) := by
  induction e with
  | const value =>
    have hvalues : (Expr.const value).values d = List.replicate d.sampleCount value := by
      rw [values, show (fun j => (Expr.const value).value (d.sample j)) = fun _ => value from rfl,
        List.map_const', List.length_range]
    rw [evaluate, ← hvalues]
    rfl
  | var index =>
    rw [evaluate]
    cases hrow : d.feature? index with
    | some row =>
      have hlt : index < d.variableCount := Dataset.feature?_isSome_iff.1 (by rw [hrow]; rfl)
      have hnone : (Expr.var index).unknownVar? d = none := by
        simpa [unknownVar?, vars] using hlt
      simp only [hnone]
      rw [Dataset.eq_map_sample hrow]
      rfl
    | none =>
      have hle : d.variableCount ≤ index := by
        have hnot := mt Dataset.feature?_isSome_iff.2 (by rw [hrow]; decide : ¬ (d.feature? index).isSome)
        exact Nat.le_of_not_lt hnot
      have hsome : (Expr.var index).unknownVar? d = some index := by
        simpa [unknownVar?, vars] using hle
      simp only [hsome]
  | unary op operand ih =>
    have hsame : (Expr.unary op operand).unknownVar? d = operand.unknownVar? d := rfl
    rw [evaluate, ih, hsame]
    cases operand.unknownVar? d with
    | some index => rfl
    | none => exact congrArg Except.ok (onBatch_values d op operand)
  | binary op left right ihl ihr =>
    rw [evaluate, ihl, ihr, unknownVar?_binary]
    cases left.unknownVar? d with
    | some index => rfl
    | none =>
      cases right.unknownVar? d with
      | some index => rfl
      | none =>
        have hlength : (left.values d).length = (right.values d).length := by
          rw [length_values, length_values]
        simp only [Option.or_none, if_pos hlength]
        rw [onBatch_values_values]

/-- An expression has values exactly when all its variables are variables of the dataset. -/
theorem evaluate_eq_ok_iff {d : Dataset} {e : Expr} {found : List Float} :
    e.evaluate d = .ok found ↔ (∀ index ∈ e.vars, index < d.variableCount) ∧ found = e.values d := by
  rw [evaluate_eq, ← unknownVar?_eq_none_iff]
  cases e.unknownVar? d with
  | some index => simp
  | none => simp [eq_comm]

/-- Where there are no values, the first unknown variable is the reason. -/
theorem evaluate_eq_error_iff {d : Dataset} {e : Expr} {cause : EvalError} :
    e.evaluate d = .error cause ↔
      ∃ index, e.unknownVar? d = some index ∧ cause = .unknownVariable index d.variableCount := by
  rw [evaluate_eq]
  cases e.unknownVar? d with
  | some index => simp [eq_comm]
  | none => simp

/-- Operands always have the same shape. -/
theorem evaluate_ne_shapeMismatch (d : Dataset) (e : Expr) (left right : Nat) :
    e.evaluate d ≠ .error (.shapeMismatch left right) := by
  intro h
  obtain ⟨index, -, hcause⟩ := evaluate_eq_error_iff.1 h
  cases hcause

end Expr

/-! ## Predictions and scores -/

namespace Individual

/-- Predicting never meets operands of different shapes. -/
theorem predict_ne_shapeMismatch (i : Individual) (d : Dataset) (left right : Nat) :
    i.predict d ≠ .error (.shapeMismatch left right) := by
  intro h
  unfold predict at h
  split at h
  · cases h
  · rename_i root _
    split at h
    · rename_i cause hcause
      cases h
      exact root.evaluate_ne_shapeMismatch d left right hcause
    · split at h <;> cases h

/-- There are always as many predictions as targets. -/
theorem score_ne_shapeMismatch (i : Individual) (left right : Nat) :
    i.score ≠ .error (.shapeMismatch left right) := by
  intro h
  unfold score at h
  split at h
  · rename_i cause hcause
    cases h
    exact i.predict_ne_shapeMismatch i.dataset left right hcause
  · rename_i predictions hpredictions
    obtain ⟨root, -, heval, -⟩ := predict_eq_ok_iff.1 hpredictions
    have hlength : predictions.length = i.dataset.sampleCount := Expr.length_of_evaluate heval
    rw [Dataset.meanSquaredError?, if_pos hlength] at h
    simp only at h
    split at h <;> cases h

end Individual

/-! ## Main statement -/

/-- **Evaluation is pointwise.**  Whatever the operators do, an expression has values
on a dataset exactly when all its variables are variables of the dataset, which the
greatest of them tells.  There is one value for each sample, and it is the value of
the expression with the variables as the sample has them.  Otherwise the first variable
from left to right that the dataset does not have is reported.  Operands of different
shapes are reported never: neither here, nor by predictions, nor in scoring. -/
theorem Expr.evaluate_pointwise (d : Dataset) (e : Expr) :
    ((∃ values, e.evaluate d = .ok values) ↔ ∀ index ∈ e.vars, index < d.variableCount) ∧
    ((∃ values, e.evaluate d = .ok values) ↔
      ∀ top, e.maxVar? = some top → top < d.variableCount) ∧
    (∀ values, e.evaluate d = .ok values →
      values.length = d.sampleCount ∧
      ∀ (j : Nat) (hj : j < values.length), values[j] = e.value (d.sample j)) ∧
    (∀ cause, e.evaluate d = .error cause →
      ∃ index, e.vars.find? (fun index => d.variableCount ≤ index) = some index ∧
        cause = .unknownVariable index d.variableCount) ∧
    (∀ (index j : Nat) (row : List Float) (hj : j < row.length),
      d.feature? index = some row → d.sample j index = row[j]) ∧
    ∀ left right, e.evaluate d ≠ .error (.shapeMismatch left right) ∧
      ∀ i : Individual, i.predict d ≠ .error (.shapeMismatch left right) ∧
        i.score ≠ .error (.shapeMismatch left right) := by
  have hvars : (∃ values, e.evaluate d = .ok values) ↔
      ∀ index ∈ e.vars, index < d.variableCount := by
    simp only [Expr.evaluate_eq_ok_iff, exists_and_left, exists_eq, and_true]
  refine ⟨hvars, ?_, ?_, ?_, ?_, ?_⟩
  · rw [hvars, Expr.maxVar?_lt_iff]
    simp only [Expr.mem_vars_iff]
  · intro values h
    obtain ⟨-, rfl⟩ := Expr.evaluate_eq_ok_iff.1 h
    refine ⟨Expr.length_values d e, ?_⟩
    intro j hj
    simp only [Expr.values, List.getElem_map, List.getElem_range]
  · intro cause h
    exact Expr.evaluate_eq_error_iff.1 h
  · intro index j row hj hrow
    exact Dataset.sample_eq hrow hj
  · intro left right
    refine ⟨e.evaluate_ne_shapeMismatch d left right, ?_⟩
    intro i
    exact ⟨i.predict_ne_shapeMismatch d left right, i.score_ne_shapeMismatch left right⟩

end SymbolicRegression
