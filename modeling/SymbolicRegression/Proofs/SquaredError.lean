/-
# What a fitness can be

Operators are arbitrary functions, and may give infinities and NaNs.  None of these
becomes a fitness: that is either the mean of squares, not negative, or the mark of
an individual that could not be scored.

* `squaredErrors` : the squared differences between targets and predictions;
* `signed_total_squaredErrors` : their sum has no minus sign;
* `fits_iff_isFinite_total` : an expression fits exactly when their sum is finite;
* `eq_invalidFitness` : among the doubles without a minus sign only infinity is not finite.

Main statement:

* `Individual.fitness_proper` : a finite error or the mark, and zero for a perfect fit.
-/
import SymbolicRegression.Proofs.Mean
import SymbolicRegression.Proofs.Reachable

namespace SymbolicRegression

open Float.Model Float.Model.UnpackedFloat

/-! ## Squared differences -/

/-- The squared differences between targets and predictions. -/
def squaredErrors (targets predictions : List Float) : List Float :=
  targets.zipWith (fun y p => (y - p) * (y - p)) predictions

section

variable {targets predictions : List Float}

/-- Squared differences of finite doubles have no minus sign, though they may be infinite. -/
theorem signed_squaredErrors (htargets : AllFinite targets) (hpredictions : AllFinite predictions) :
    ∀ v ∈ squaredErrors targets predictions, Signed .positive v := by
  intro v hv
  obtain ⟨y, p, hmem, rfl⟩ : ∃ y p, (y, p) ∈ targets.zip predictions ∧
      v = (y - p) * (y - p) := by
    rw [squaredErrors, ← List.map_uncurry_zip_eq_zipWith, List.mem_map] at hv
    obtain ⟨⟨y, p⟩, hmem, rfl⟩ := hv
    exact ⟨y, p, hmem, rfl⟩
  have hy := htargets y (List.of_mem_zip hmem).1
  have hp := hpredictions p (List.of_mem_zip hmem).2
  exact signed_mul_self (isNaN_sub hy hp)

theorem squaredErrors_ne_nil (hne : targets ≠ []) (hlength : predictions.length = targets.length) :
    squaredErrors targets predictions ≠ [] := by
  have hpos := List.length_pos_iff.2 hne
  rw [← List.length_pos_iff, squaredErrors, List.length_zipWith, hlength]
  omega

/-- **The sum of squared differences has no minus sign**, and is not a NaN. -/
theorem signed_total_squaredErrors (hne : targets ≠ [])
    (hlength : predictions.length = targets.length) (htargets : AllFinite targets)
    (hpredictions : AllFinite predictions) :
    Signed .positive (total (squaredErrors targets predictions)) :=
  signed_total (squaredErrors_ne_nil hne hlength) (signed_squaredErrors htargets hpredictions)

end

/-- Equal numbers that are not zeros have the same sign, exponent and mantissa. -/
theorem parts_eq_of_compare {s t : Sign} {m m' : Nat} {e e' : Int} {hm : 0 < m} {hm' : 0 < m'}
    (h : UnpackedFloat.compare (.finite s m e hm) (.finite t m' e' hm') = some .eq) :
    s = t ∧ e = e' ∧ m = m' := by
  have hparts (h : (compare e e').then (compare m m') = .eq) : e = e' ∧ m = m' := by
    rw [Ordering.then_eq_eq] at h
    exact ⟨compare_eq_iff_eq.1 h.1, compare_eq_iff_eq.1 h.2⟩
  cases s with
  | positive =>
    cases t with
    | positive =>
      rw [UnpackedFloat.compare, Option.some_inj] at h
      exact ⟨rfl, hparts h⟩
    | negative => cases h
  | negative =>
    cases t with
    | positive => cases h
    | negative =>
      -- below zero the order of the magnitudes is reversed
      rw [UnpackedFloat.compare, Option.some_inj, Ordering.swap_eq_eq] at h
      exact ⟨rfl, hparts h⟩

/-- The difference of equal numbers is a zero. -/
theorem unpackedSub_of_beq {u v : UnpackedFloat} (hu : u.isFinite = true)
    (h : UnpackedFloat.beq u v = true) : ∃ s, UnpackedFloat.sub .binary64 u v = .zero s := by
  rw [UnpackedFloat.beq, beq_iff_eq] at h
  cases u with
  | notANumber => cases hu
  | infinity s => cases hu
  | zero s =>
    cases v with
    | notANumber => cases h
    | infinity t => cases t <;> cases h
    | zero t =>
      rw [UnpackedFloat.sub]
      split
      · exact ⟨_, rfl⟩
      · exact ⟨_, rfl⟩
    | finite t m' e' hm' => cases t <;> cases h
  | finite s m e hm =>
    cases v with
    | notANumber => cases s <;> cases h
    | infinity t => cases s <;> cases t <;> cases h
    | zero t => cases s <;> cases h
    | finite t m' e' hm' =>
      obtain ⟨rfl, rfl, rfl⟩ := parts_eq_of_compare h
      refine ⟨.positive, ?_⟩
      simp only [UnpackedFloat.sub, Int.sub_self, UnpackedFloat.normalize]
      rfl

/-- So is its square. -/
theorem sub_mul_self_of_beq {y p : Float} (hy : y.isFinite = true) (h : (y == p) = true) :
    (y - p) * (y - p) = 0.0 := by
  obtain ⟨s, hs⟩ := unpackedSub_of_beq (u := y.toModel.unpack) hy h
  have hsub : y - p = .ofModel (.pack (.zero s)) := by
    rw [← hs]
    rfl
  rw [hsub]
  cases s <;> rfl

/-- Where predictions equal the targets, no squared difference is left. -/
theorem squaredErrors_eq_zero {targets predictions : List Float} (htargets : AllFinite targets)
    (h : List.Forall₂ (fun y p => (y == p) = true) targets predictions) :
    ∀ v ∈ squaredErrors targets predictions, v = 0.0 := by
  induction h with
  | nil => simp [squaredErrors]
  | cons hhead _ ih =>
    intro v hv
    rw [squaredErrors, List.zipWith_cons_cons, List.mem_cons] at hv
    rcases hv with rfl | hv
    · exact sub_mul_self_of_beq (htargets _ List.mem_cons_self) hhead
    · exact ih (fun y hy => htargets y (List.mem_cons_of_mem _ hy)) v hv

/-! ## What is not finite -/

/-- **Among the doubles without a minus sign only infinity is not finite.** -/
theorem eq_invalidFitness {x : Float} (h : Signed .positive x) (hfinite : x.isFinite = false) :
    x = invalidFitness := by
  have hinfinity : invalidFitness.toModel.unpack = .infinity .positive := by rfl
  apply float_ext
  have hx : x.toModel.unpack.isFinite = false := hfinite
  rw [hinfinity]
  rw [Signed] at h
  generalize x.toModel.unpack = u at h hx
  cases h with
  | infinity => rfl
  | zero => cases hx
  | finite hm => cases hx

theorem signed_invalidFitness : Signed .positive invalidFitness := .infinity

/-! ## The error of an expression -/

section Fits

variable {d : Dataset} {root : Expr} {predictions : List Float}

/-- The error of a fit is the sum of the squared differences by their number. -/
theorem Fits.error_eq_total {error : Float} (h : Fits d root predictions error) :
    error = total (squaredErrors d.targets predictions) / Float.ofNat d.sampleCount :=
  h.error_eq

/-- **An expression with finite predictions fits exactly when the sum of the squared
differences is finite**: dividing it by the number of samples makes no difference. -/
theorem fits_iff_isFinite_total (heval : root.evaluate d = .ok predictions)
    (hfinite : AllFinite predictions) :
    (∃ error, Fits d root predictions error) ↔
      (total (squaredErrors d.targets predictions)).isFinite = true := by
  have hlength : predictions.length = d.targets.length := Expr.length_of_evaluate heval
  have hsigned := signed_total_squaredErrors d.targets_ne_nil hlength d.targets_finite hfinite
  rw [← hsigned.isFinite_div_ofNat_iff d.sampleCount_pos]
  constructor
  · rintro ⟨error, hfit⟩
    rw [← hfit.error_eq_total]
    exact hfit.error_finite
  · intro h
    exact ⟨_, heval, hfinite, rfl, h⟩

variable {error : Float}

/-- The error of an expression has no minus sign. -/
theorem Fits.signed_error (h : Fits d root predictions error) : Signed .positive error := by
  have hlength : predictions.length = d.targets.length := Expr.length_of_evaluate h.evaluate_eq
  have hsigned :=
    signed_total_squaredErrors d.targets_ne_nil hlength d.targets_finite h.predictions_finite
  have hfinite := h.error_finite
  rw [h.error_eq_total] at hfinite ⊢
  exact hsigned.div_ofNat d.sampleCount_pos hfinite

/-- Predictions that equal the targets have no error. -/
theorem squaredErrors_quotient_eq_zero
    (h : List.Forall₂ (fun y p => (y == p) = true) d.targets predictions) :
    total (squaredErrors d.targets predictions) / Float.ofNat d.sampleCount = 0.0 := by
  have hlength := h.length_eq.symm
  have hzero := squaredErrors_eq_zero d.targets_finite h
  rw [total_eq_zero (squaredErrors_ne_nil d.targets_ne_nil hlength) hzero,
    zero_div_ofNat d.sampleCount_pos]

end Fits

namespace Individual

variable {i : Individual}

/-- A right fitness has no minus sign, and it is finite or the mark of invalidity. -/
theorem Scored.signed_fitness (h : i.Scored) : Signed .positive i.fitness := by
  rcases h with ⟨predictions, root, hroot, hfit⟩ | ⟨-, hfitness⟩
  · exact hfit.signed_error
  · rw [hfitness]
    exact signed_invalidFitness

/-- The fitness of a perfect fit is zero. -/
theorem Scored.fitness_eq_zero (h : i.Scored) {predictions : List Float}
    (hpredict : i.predict i.dataset = .ok predictions)
    (hequal : List.Forall₂ (fun y p => (y == p) = true) i.dataset.targets predictions) :
    i.fitness = 0.0 := by
  obtain ⟨root, hroot, heval, hfinite⟩ := predict_eq_ok_iff.1 hpredict
  have hquotient := squaredErrors_quotient_eq_zero hequal
  have hfit : i.HasFit predictions 0.0 :=
    ⟨root, hroot, heval, hfinite, hquotient.symm, by decide⟩
  rcases h with ⟨predictions', hfit'⟩ | ⟨hnone, -⟩
  · exact (hfit'.unique hfit).2
  · exact absurd ⟨predictions, 0.0, hfit⟩ hnone

/-- **A fitness is an error or the mark of invalidity.**  Whatever the operators give, the
fitness of a reachable individual is not a NaN and not below zero; it is finite, or it is
the mark, and the individual is valid exactly in the first case.  Where the predictions
equal the targets at every sample it is zero. -/
theorem fitness_proper (hi : Reachable i) :
    i.fitness.isNaN = false ∧ 0.0 ≤ i.fitness ∧
    (i.fitness.isFinite = true ∧ i.isValid = true ∨
      i.fitness = invalidFitness ∧ i.isValid = false) ∧
    ∀ predictions, i.predict i.dataset = .ok predictions →
      List.Forall₂ (fun y p => (y == p) = true) i.dataset.targets predictions →
      i.fitness = 0.0 := by
  have hscored := hi.sound.scored
  have hsigned := hscored.signed_fitness
  refine ⟨hsigned.isNaN, hsigned.zero_le, ?_, ?_⟩
  · rcases Bool.eq_false_or_eq_true i.fitness.isFinite with hfinite | hfinite
    · exact .inl ⟨hfinite, hfinite⟩
    · exact .inr ⟨eq_invalidFitness hsigned hfinite, hfinite⟩
  · intro predictions hpredict hequal
    exact hscored.fitness_eq_zero hpredict hequal

theorem fitness_proper_parabola :
    Reachable parabola ∧ parabola.predict parabola.dataset = .ok [1.0, 4.0] ∧
      parabola.fitness = 0.0 := by
  have hdataset : parabola.dataset = twoSquares := rfl
  have heval : squared.evaluate twoSquares = .ok [1.0, 4.0] := rfl
  have hpredict : parabola.predict parabola.dataset = .ok [1.0, 4.0] := by
    rw [hdataset]
    exact predict_eq_ok_iff.2 ⟨squared, root_parabola, heval, by decide +kernel⟩
  refine ⟨reachable_parabola, hpredict, ?_⟩
  obtain ⟨-, -, -, hzero⟩ := fitness_proper reachable_parabola
  apply hzero _ hpredict
  rw [hdataset]
  exact .cons (by decide +kernel) (.cons (by decide +kernel) .nil)

end Individual

end SymbolicRegression
