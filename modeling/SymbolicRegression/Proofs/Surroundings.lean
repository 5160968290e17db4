/-
# What surrounds a position

Evaluation goes from the leaves up, and what an expression contributes on the way is the
outcome of its own evaluation, be it values or an error.  So the rest of a larger expression
is a function from that outcome to the outcome of the whole, and two expressions with the
same outcome cannot be told apart from above.

* `UnaryOperator.onOutcome`, `BinaryOperator.onOutcomes` : operators on outcomes;
* `Expr.evaluateAround` : the outcome of the whole, when the one at a position is given;
* `Splice.evaluate_eq_around` : what is put in at a position counts by its outcome alone;
* `Individual.predict_congr`, `Individual.Scored.fitness_congr` : equal outcomes have equal
  predictions, and these have equal fitness.

Main statement:

* `Individual.equal_outcome_unnoticed` : **putting in an expression with the same outcome
  changes nothing above it.**
-/
import SymbolicRegression.Proofs.Reachable

namespace SymbolicRegression

/-! ## Operators on outcomes -/

/-- A unary operator on the outcome of its operand: an error passes through. -/
def UnaryOperator.onOutcome (op : UnaryOperator) :
    Except EvalError (List Float) → Except EvalError (List Float)
  | .error cause => .error cause
  | .ok values => .ok (op.onBatch values)

/-- A binary operator on the outcomes of its operands: the error of the left one counts
before that of the right one. -/
def BinaryOperator.onOutcomes (op : BinaryOperator) :
    Except EvalError (List Float) → Except EvalError (List Float) → Except EvalError (List Float)
  | .error cause, _ => .error cause
  | .ok _, .error cause => .error cause
  | .ok lefts, .ok rights =>
      if lefts.length = rights.length then .ok (op.onBatch lefts rights)
      else .error (.shapeMismatch lefts.length rights.length)

namespace Expr

variable {d : Dataset} {old new e e' : Expr} {path : Path}

theorem evaluate_unary (op : UnaryOperator) (operand : Expr) :
    (Expr.unary op operand).evaluate d = op.onOutcome (operand.evaluate d) := by
  rw [evaluate]
  cases operand.evaluate d <;> rfl

theorem evaluate_binary (op : BinaryOperator) (left right : Expr) :
    (Expr.binary op left right).evaluate d = op.onOutcomes (left.evaluate d) (right.evaluate d) := by
  rw [evaluate]
  cases left.evaluate d with
  | error cause => rfl
  | ok lefts => cases right.evaluate d <;> rfl

/-! ## The outcome around a position -/

/-- The outcome of evaluating an expression when the outcome at a position is given, whatever
stands there.  Where there is no such position, it is that of the expression itself. -/
def evaluateAround (d : Dataset) (outcome : Except EvalError (List Float)) :
    Expr → Path → Except EvalError (List Float)
  | _, [] => outcome
  | .binary op left right, .left :: path =>
      op.onOutcomes (left.evaluateAround d outcome path) (right.evaluate d)
  | .binary op left right, .right :: path =>
      op.onOutcomes (left.evaluate d) (right.evaluateAround d outcome path)
  | .unary op operand, .left :: path => op.onOutcome (operand.evaluateAround d outcome path)
  | e, _ :: _ => e.evaluate d

end Expr

namespace Splice

variable {d : Dataset} {old new e e' : Expr} {path : Path}

/-- **What is put in counts by its outcome alone**: the outcome of the whole is the one that
the surroundings make of it. -/
theorem evaluate_eq_around (h : Splice old new path e e') (d : Dataset) :
    e'.evaluate d = e.evaluateAround d (new.evaluate d) path := by
  induction h with
  | here => cases old <;> rfl
  | left _ ih => rw [Expr.evaluate_binary, Expr.evaluateAround, ih]
  | right _ ih => rw [Expr.evaluate_binary, Expr.evaluateAround, ih]
  | operand _ ih => rw [Expr.evaluate_unary, Expr.evaluateAround, ih]

/-- Putting in what is there already is an edit that changes nothing. -/
theorem unedited (h : Splice old new path e e') : Splice old old path e e := by
  induction h with
  | here => exact .here
  | left _ ih => exact .left ih
  | right _ ih => exact .right ih
  | operand _ ih => exact .operand ih

/-- An edit between expressions with the same outcome keeps the outcome of the whole. -/
theorem evaluate_congr (h : Splice old new path e e')
    (hsame : new.evaluate d = old.evaluate d) : e'.evaluate d = e.evaluate d := by
  rw [h.evaluate_eq_around, hsame, ← h.unedited.evaluate_eq_around]

end Splice

namespace Individual

variable {i j : Individual} {root root' : Expr} {d : Dataset}

/-! ## Predictions and fitness -/

/-- Expressions that are evaluated alike predict alike. -/
theorem predict_congr (hroot : i.root = some root) (hroot' : j.root = some root')
    (h : root.evaluate d = root'.evaluate d) : j.predict d = i.predict d := by
  unfold predict
  rw [hroot, hroot']
  simp only [h]

/-- Individuals that predict alike on their common dataset have the same score. -/
theorem score_congr (hdataset : j.dataset = i.dataset)
    (h : j.predict i.dataset = i.predict i.dataset) : j.score = i.score := by
  rw [score, score, hdataset, h]

/-- The fitness that rescoring finds is that of the score. -/
theorem fitness_rescore_congr (h : j.score = i.score) :
    j.rescore.individual.fitness = i.rescore.individual.fitness := by
  rw [rescore, rescore, h]
  cases i.score <;> rfl

/-- **Equal predictions have equal fitness.** -/
theorem Scored.fitness_congr (hi : i.Scored) (hj : j.Scored) (hdataset : j.dataset = i.dataset)
    (h : j.predict i.dataset = i.predict i.dataset) : j.fitness = i.fitness := by
  have hfitness := fitness_rescore_congr (score_congr hdataset h)
  rwa [scored_iff.1 hi, scored_iff.1 hj] at hfitness

/-! ## Main statement -/

/-- **Putting in an expression with the same outcome changes nothing above it.**  Where `old`
stands in an expression, any other one can be put in.  The outcome of the whole is then what
the surroundings of that position make of the outcome of what was put in, values or error, as
it was before with that of `old`; so two expressions with one outcome leave one outcome.  If
it is also the outcome of `old`, nothing has changed: not the outcome of the whole, not the
predictions of an individual with that expression; and if the dataset is that of the
individual, not its score, nor, for a reachable individual, the fitness that it has. -/
theorem equal_outcome_unnoticed {e old : Expr} {path : Path} (hold : e.get? path = some old)
    (d : Dataset) (new : Expr) :
    ∃ e', e.replace? path new = some e' ∧
      e.evaluate d = e.evaluateAround d (old.evaluate d) path ∧
      e'.evaluate d = e.evaluateAround d (new.evaluate d) path ∧
      (∀ other e'', e.replace? path other = some e'' → other.evaluate d = new.evaluate d →
        e''.evaluate d = e'.evaluate d) ∧
      (new.evaluate d = old.evaluate d → e'.evaluate d = e.evaluate d ∧
        ∀ i : Individual, i.root = some e →
          (i.put path new).root = some e' ∧ (i.put path new).predict d = i.predict d ∧
          (i.dataset = d → (i.put path new).score = i.score ∧
            (Reachable i →
              (i.put path new).rescore.individual = { i with root := some e' }))) := by
  obtain ⟨e', hsplice⟩ := Expr.exists_splice_of_get? hold new
  have haround := hsplice.evaluate_eq_around d
  have hbefore := hsplice.unedited.evaluate_eq_around d
  refine ⟨e', Expr.replace?_eq_some_of_splice hsplice, hbefore, haround, ?_, ?_⟩
  · intro other e'' hreplace hsame
    have hother := (Expr.splice_of_replace? hold hreplace).evaluate_eq_around d
    rw [hother, haround, hsame]
  · intro hsame
    have hequal : e'.evaluate d = e.evaluate d := hsplice.evaluate_congr hsame
    refine ⟨hequal, ?_⟩
    intro i hroot
    have hput : i.put path new = { i with root := some e' } := put_of_splice hroot hsplice
    have hpredict : (i.put path new).predict d = i.predict d := by
      rw [hput]
      exact predict_congr hroot rfl hequal.symm
    refine ⟨by rw [hput], hpredict, ?_⟩
    rintro rfl
    have hscore : (i.put path new).score = i.score := by
      rw [hput] at hpredict ⊢
      exact score_congr rfl hpredict
    refine ⟨hscore, ?_⟩
    intro hi
    -- rescoring finds the fitness that the individual had before, which was right
    have hfitness : (i.put path new).rescore.individual.fitness = i.fitness := by
      rw [fitness_rescore_congr hscore, hi.sound.rescore_eq]
    rw [rescore_individual, hfitness, hput]

/-- In the square of the variable, one times the variable goes unnoticed in its place. -/
theorem equal_outcome_unnoticed_parabola :
    squared.get? [.left] = some (.var 0) ∧
      ∃ e', squared.replace? [.left] (.binary ⟨"multiply", fun x y => x * y⟩ (.const 1.0) (.var 0)) =
          some e' ∧
        e'.evaluate twoSquares = squared.evaluate twoSquares ∧
        Reachable parabola ∧ parabola.root = some squared ∧
        (parabola.put [.left]
          (.binary ⟨"multiply", fun x y => x * y⟩ (.const 1.0) (.var 0))).rescore.individual =
            { parabola with root := some e' } := by
  have hget : squared.get? [.left] = some (.var 0) := rfl
  obtain ⟨e', hreplace, -, -, -, hsame⟩ := equal_outcome_unnoticed hget twoSquares
    (.binary ⟨"multiply", fun x y => x * y⟩ (.const 1.0) (.var 0))
  have hvalues : [1.0 * 1.0, 1.0 * 2.0] = [(1.0 : Float), 2.0] := by decide +kernel
  obtain ⟨hevaluate, hindividual⟩ := hsame (congrArg Except.ok hvalues)
  obtain ⟨-, -, hfitness⟩ := hindividual parabola root_parabola
  exact ⟨hget, e', hreplace, hevaluate, reachable_parabola, root_parabola,
    (hfitness rfl).2 reachable_parabola⟩

end Individual

end SymbolicRegression
