/-
# The fitness of an individual

What the fitness of an individual ought to be, told without a run, and why
rescoring brings it about.

* `Fits` : an expression has finite predictions and a finite mean squared error;
* `Individual.Scored` : the fitness is that of the expression;
* `Individual.score_eq_ok_iff`, `Individual.rescore_cases` : what scoring finds;
* `Individual.scored_iff` : rescoring changes nothing exactly when the fitness is right;
* `Individual.isValid_rescore_iff` : a rescored individual is valid exactly when its
  expression fits.
-/
import SymbolicRegression.Individual.Basic
import SymbolicRegression.Proofs.Symbol

namespace SymbolicRegression

/-- An expression fits a dataset with the given predictions and error: these are
its values and their mean squared distance to the targets, the running sum of the squares
divided by how many targets there are; and all are finite. -/
structure Fits (d : Dataset) (root : Expr) (predictions : List Float) (error : Float) : Prop where
  evaluate_eq : root.evaluate d = .ok predictions
  predictions_finite : AllFinite predictions
  error_eq : error =
    (d.targets.zipWith (fun y p => (y - p) * (y - p)) predictions).foldl (· + ·) (-0.0) /
      Float.ofNat d.targets.length
  error_finite : error.isFinite = true

/-- For as many predictions as targets there is an error: the sum of the squares by their
number. -/
theorem Dataset.meanSquaredError?_eq {d : Dataset} {predictions : List Float}
    (h : predictions.length = d.sampleCount) :
    d.meanSquaredError? predictions = some
      ((d.targets.zipWith (fun y p => (y - p) * (y - p)) predictions).foldl (· + ·) (-0.0) /
        Float.ofNat d.targets.length) := by
  have hcount : (d.targets.zipWith (fun y p => (y - p) * (y - p)) predictions).length =
      d.targets.length := by
    rw [List.length_zipWith, h, sampleCount, Nat.min_self]
  rw [meanSquaredError?, if_pos h, mean, hcount, total]

/-- The variables of an expression that fits a dataset are variables of the dataset. -/
theorem Fits.var_lt {d : Dataset} {root : Expr} {predictions : List Float} {error : Float}
    (h : Fits d root predictions error) {index : Nat} (hv : Symbol.var index ∈ root.symbols) :
    index < d.variableCount :=
  Expr.var_lt_of_evaluate h.evaluate_eq hv

/-- There is only one way to fit. -/
theorem Fits.unique {d : Dataset} {root : Expr} {predictions predictions' : List Float}
    {error error' : Float} (h : Fits d root predictions error)
    (h' : Fits d root predictions' error') : predictions = predictions' ∧ error = error' := by
  have hp : predictions = predictions' := by
    have := h.evaluate_eq.symm.trans h'.evaluate_eq
    injection this
  exact ⟨hp, by rw [h.error_eq, h'.error_eq, hp]⟩

/-- The fitness that stands for "no score" is not finite. -/
theorem isFinite_invalidFitness : invalidFitness.isFinite = false := by decide

namespace Individual

variable {i : Individual}

/-- Whether the expression of an individual, if there is one, fits its dataset. -/
def HasFit (i : Individual) (predictions : List Float) (error : Float) : Prop :=
  ∃ root, i.root = some root ∧ Fits i.dataset root predictions error

/-- The predictions and the error of a fit are determined. -/
theorem HasFit.unique {predictions predictions' : List Float} {error error' : Float}
    (h : i.HasFit predictions error) (h' : i.HasFit predictions' error') :
    predictions = predictions' ∧ error = error' := by
  obtain ⟨root, hroot, hfit⟩ := h
  obtain ⟨root', hroot', hfit'⟩ := h'
  obtain rfl : root = root' := Option.some.inj (hroot.symm.trans hroot')
  exact hfit.unique hfit'

/-- **The fitness is that of the expression**: its error if it fits the dataset,
and `invalidFitness` if it does not, or if there is no expression. -/
def Scored (i : Individual) : Prop :=
  (∃ predictions, i.HasFit predictions i.fitness) ∨
    ((¬ ∃ predictions error, i.HasFit predictions error) ∧ i.fitness = invalidFitness)

/-! ## Scoring -/

/-- The predictions of an individual are the values of its expression, if all are finite. -/
theorem predict_eq_ok_iff {d : Dataset} {values : List Float} :
    i.predict d = .ok values ↔
      ∃ root, i.root = some root ∧ root.evaluate d = .ok values ∧ AllFinite values := by
  unfold predict
  cases hroot : i.root with
  | none => simp
  | some root =>
    cases hv : root.evaluate d with
    | error cause => simp [hv]
    | ok found =>
      simp only [Option.some.injEq, exists_eq_left', hv, Except.ok.injEq]
      split
      · rename_i hfin
        rw [Except.ok.injEq]
        exact ⟨fun h => ⟨h, h ▸ hfin⟩, fun h => h.1⟩
      · rename_i hfin
        refine ⟨fun h => ?_, fun ⟨h, hf⟩ => absurd (h ▸ hf) hfin⟩
        cases h

/-- **Scoring finds the fit.**  It succeeds exactly when the expression fits the
dataset, with the error and the predictions of the fit. -/
theorem score_eq_ok_iff {s : Score} :
    i.score = .ok s ↔ i.HasFit s.predictions s.meanSquaredError := by
  obtain ⟨error, predictions⟩ := s
  unfold score
  cases hp : i.predict i.dataset with
  | error cause =>
    simp only [reduceCtorEq, false_iff]
    rintro ⟨root, hroot, hfit⟩
    have hok := predict_eq_ok_iff.2 ⟨root, hroot, hfit.evaluate_eq, hfit.predictions_finite⟩
    rw [hp] at hok
    cases hok
  | ok found =>
    obtain ⟨root, hroot, heval, hfin⟩ := predict_eq_ok_iff.1 hp
    -- predictions are as many as targets, so there is a mean squared error
    simp only [Dataset.meanSquaredError?_eq (Expr.length_of_evaluate heval)]
    constructor
    · intro h
      split at h
      · rename_i herr
        cases h
        exact ⟨root, hroot, heval, hfin, rfl, herr⟩
      · cases h
    · rintro ⟨root', hroot', hfit⟩
      rw [hroot, Option.some.injEq] at hroot'
      subst hroot'
      have hsame : found = predictions := by
        have := heval.symm.trans hfit.evaluate_eq
        injection this
      subst hsame
      rw [← hfit.error_eq, if_pos hfit.error_finite]

/-- **What rescoring finds.**  Either the expression fits, and its error becomes
the fitness; or it does not, and the individual is marked invalid. -/
theorem rescore_cases (i : Individual) :
    (∃ predictions error, i.HasFit predictions error ∧
      i.rescore = ⟨{ i with fitness := error }, some predictions, []⟩) ∨
    ((¬ ∃ predictions error, i.HasFit predictions error) ∧ ∃ cause,
      i.rescore = ⟨{ i with fitness := invalidFitness }, none, [.scoringFailed i.root cause]⟩) := by
  unfold rescore
  cases hs : i.score with
  | ok s => exact .inl ⟨s.predictions, s.meanSquaredError, score_eq_ok_iff.1 hs, rfl⟩
  | error cause =>
    refine .inr ⟨?_, cause, rfl⟩
    rintro ⟨predictions, error, hfit⟩
    rw [score_eq_ok_iff (s := ⟨error, predictions⟩).2 hfit] at hs
    cases hs

/-- Rescoring does not look at the fitness from before. -/
theorem rescore_with_fitness (i : Individual) (fitness : Float) :
    ({ i with fitness } : Individual).rescore = i.rescore := rfl

/-- The individual with `root` for its expression, scored. -/
def scoredWith (i : Individual) (root : Expr) : Individual :=
  ({ i with root := some root } : Individual).rescore.individual

/-! ## What rescoring leaves alone -/

/-- Rescoring changes the fitness and nothing else. -/
theorem rescore_individual (i : Individual) :
    i.rescore.individual = { i with fitness := i.rescore.individual.fitness } := by
  rcases i.rescore_cases with ⟨_, _, -, h⟩ | ⟨-, _, h⟩ <;> rw [h]

@[simp] theorem root_rescore (i : Individual) : i.rescore.individual.root = i.root := by
  rw [rescore_individual]

@[simp] theorem settings_rescore (i : Individual) :
    i.rescore.individual.settings = i.settings := by
  rw [rescore_individual]

@[simp] theorem primitives_rescore (i : Individual) :
    i.rescore.individual.primitives = i.primitives := by
  rw [rescore_individual]

@[simp] theorem dataset_rescore (i : Individual) : i.rescore.individual.dataset = i.dataset := by
  rw [rescore_individual]

/-! ## A right fitness -/

/-- Rescoring makes the fitness right. -/
theorem scored_rescore (i : Individual) : i.rescore.individual.Scored := by
  rcases i.rescore_cases with ⟨predictions, error, hfit, h⟩ | ⟨hnone, cause, h⟩
  · rw [h]
    exact .inl ⟨predictions, hfit⟩
  · rw [h]
    exact .inr ⟨hnone, rfl⟩

/-- **Rescoring changes nothing exactly when the fitness is right.** -/
theorem scored_iff : i.Scored ↔ i.rescore.individual = i := by
  refine ⟨fun hi => ?_, fun h => h ▸ scored_rescore i⟩
  rcases i.rescore_cases with ⟨predictions, error, hfit, h⟩ | ⟨hnone, cause, h⟩
  · rw [h]
    rcases hi with ⟨predictions', hfit'⟩ | ⟨hnone, -⟩
    · rw [(hfit.unique hfit').2]
    · exact absurd ⟨predictions, error, hfit⟩ hnone
  · rw [h]
    rcases hi with ⟨predictions, hfit⟩ | ⟨-, hf⟩
    · exact absurd ⟨predictions, _, hfit⟩ hnone
    · rw [← hf]

/-- A rescored individual is valid exactly when its expression fits. -/
theorem isValid_rescore_iff :
    i.rescore.individual.isValid = true ↔ ∃ predictions error, i.HasFit predictions error := by
  rcases i.rescore_cases with ⟨predictions, error, hfit, h⟩ | ⟨hnone, cause, h⟩
  · rw [h]
    refine ⟨fun _ => ⟨predictions, error, hfit⟩, fun _ => ?_⟩
    obtain ⟨root, -, hfit⟩ := hfit
    exact hfit.error_finite
  · rw [h]
    refine ⟨fun hv => ?_, fun hfit => absurd hfit hnone⟩
    rw [isValid, isFinite_invalidFitness] at hv
    cases hv

/-- Of an individual that turns out valid rescoring has nothing to report. -/
theorem log_rescore_of_isValid (h : i.rescore.individual.isValid = true) : i.rescore.log = [] := by
  rcases i.rescore_cases with ⟨_, _, -, hrescore⟩ | ⟨hnone, -⟩
  · rw [hrescore]
  · exact absurd (isValid_rescore_iff.1 h) hnone

/-- The predictions that rescoring reports are those of the expression. -/
theorem predictions_rescore_eq_some_iff {predictions : List Float} :
    i.rescore.predictions = some predictions ↔ ∃ error, i.HasFit predictions error := by
  rcases i.rescore_cases with ⟨predictions', error, hfit, h⟩ | ⟨hnone, cause, h⟩
  · rw [h, Option.some.injEq]
    constructor
    · rintro rfl
      exact ⟨error, hfit⟩
    · rintro ⟨error', hfit'⟩
      exact (hfit.unique hfit').1
  · rw [h]
    refine ⟨fun hp => ?_, fun ⟨error, hfit⟩ => absurd ⟨predictions, error, hfit⟩ hnone⟩
    cases hp

end Individual

end SymbolicRegression
