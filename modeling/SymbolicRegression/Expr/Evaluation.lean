/-
# Evaluation

Expressions are evaluated on all samples of a dataset at once.

* `EvalError` : why there are no values;
* `Expr.evaluate` : the values of an expression, one per sample;
* `Expr.value` : the value of an expression when each variable has one value.
-/
import SymbolicRegression.Dataset
import SymbolicRegression.Expr.Basic

namespace SymbolicRegression

/-- Why an expression has no values on a dataset. -/
inductive EvalError
  /-- A variable that the dataset does not have. -/
  | unknownVariable (index count : Nat)
  /-- Two operands with different numbers of values. -/
  | shapeMismatch (left right : Nat)
  /-- A value that is infinite or a NaN. -/
  | notFinite
  /-- There is no expression. -/
  | noRoot
  deriving DecidableEq, Repr

/-- The wording of an error. -/
def EvalError.message : EvalError → String
  | .unknownVariable index count =>
      "variable x[" ++ toString index ++ "] is out of range for " ++ toString count ++ " variables"
  | .shapeMismatch left right =>
      "operand shape mismatch: " ++ toString left ++ " vs " ++ toString right ++ " samples"
  | .notFinite => "expression produced a non-finite value"
  | .noRoot => "tree has no root"

namespace Expr

/-- The values of an expression, one per sample.  They need not be finite.  When
both operands fail, the error of the left one counts. -/
def evaluate (d : Dataset) : Expr → Except EvalError (List Float)
  | .const value => .ok (List.replicate d.sampleCount value)
  | .var index =>
      match d.feature? index with
      | some row => .ok row
      | none => .error (.unknownVariable index d.variableCount)
  | .unary op operand =>
      match operand.evaluate d with
      | .error e => .error e
      | .ok values => .ok (op.onBatch values)
  | .binary op left right =>
      match left.evaluate d with
      | .error e => .error e
      | .ok lefts =>
          match right.evaluate d with
          | .error e => .error e
          | .ok rights =>
              if lefts.length = rights.length then .ok (op.onBatch lefts rights)
              else .error (.shapeMismatch lefts.length rights.length)

/-- The value of an expression where variable `i` has the value `assignment i`. -/
def value (assignment : Nat → Float) : Expr → Float
  | .const value => value
  | .var index => assignment index
  | .unary op operand => op.call (operand.value assignment)
  | .binary op left right => op.call (left.value assignment) (right.value assignment)

/-- An evaluation has one value for each sample. -/
theorem length_of_evaluate {d : Dataset} {e : Expr} {values : List Float}
    (h : e.evaluate d = .ok values) : values.length = d.sampleCount := by
  induction e generalizing values with
  | const value => obtain rfl := Except.ok.inj h; simp
  | var index =>
    unfold evaluate at h
    split at h
    · obtain rfl := Except.ok.inj h
      exact Dataset.length_of_feature? (by assumption)
    · exact absurd h (by simp)
  | unary op operand ih =>
    unfold evaluate at h
    split at h
    · exact absurd h (by simp)
    · obtain rfl := Except.ok.inj h
      rw [UnaryOperator.length_onBatch]
      exact ih (by assumption)
  | binary op left right ihl ihr =>
    unfold evaluate at h
    split at h
    · exact absurd h (by simp)
    · split at h
      · exact absurd h (by simp)
      · split at h
        · obtain rfl := Except.ok.inj h
          rw [BinaryOperator.length_onBatch]
          exact ihl (by assumption)
        · exact absurd h (by simp)

end Expr

end SymbolicRegression
