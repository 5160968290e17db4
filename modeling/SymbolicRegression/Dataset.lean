/-
# Datasets

The samples that expressions are scored on: for each variable its values, one
per sample, and for each sample a target.

* `Dataset` : the data, rectangular, finite and not empty;
* `Dataset.ofFeatures` : from one row per variable;
* `Dataset.ofSamples` : from one row per sample;
* `Dataset.meanSquaredError?` : how far predictions are from the targets.
-/
import SymbolicRegression.Batch

namespace SymbolicRegression

/-- Why rows and targets do not make a dataset. -/
inductive DatasetError
  /-- There is no variable. -/
  | noVariables
  /-- There is no sample. -/
  | noSamples
  /-- A variable has another number of values than there are targets. -/
  | raggedFeature (index length expected : Nat)
  /-- A sample has another number of inputs than the first one. -/
  | raggedSample (index length expected : Nat)
  /-- A value or a target is infinite or a NaN. -/
  | notFinite
  deriving DecidableEq, Repr

/-- The wording of an error. -/
def DatasetError.message : DatasetError → String
  | .noVariables => "dataset has no variables"
  | .noSamples => "dataset has no samples"
  | .raggedFeature index length expected =>
      "variable x[" ++ toString index ++ "] has " ++ toString length ++ " samples, expected "
        ++ toString expected
  | .raggedSample index length expected =>
      "sample " ++ toString index ++ " has " ++ toString length ++ " inputs, expected "
        ++ toString expected
  | .notFinite => "dataset contains a non-finite value"

/-- Training data.  Row `i` of `features` holds the values of variable `i`. -/
structure Dataset where
  features : List (List Float)
  targets : List Float
  features_ne_nil : features ≠ []
  targets_ne_nil : targets ≠ []
  rectangular : ∀ row ∈ features, row.length = targets.length
  features_finite : ∀ row ∈ features, AllFinite row
  targets_finite : AllFinite targets

/-! ## Ragged rows -/

/-- The first row whose length is not `expected`: its position, counted from
`start`, and its length. -/
def raggedFrom (expected : Nat) : Nat → List (List Float) → Option (Nat × Nat)
  | _, [] => none
  | start, row :: rest =>
      if row.length = expected then raggedFrom expected (start + 1) rest
      else some (start, row.length)

/-- No row is ragged if all of them have the expected length. -/
theorem raggedFrom_eq_none_iff {expected start : Nat} {rows : List (List Float)} :
    raggedFrom expected start rows = none ↔ ∀ row ∈ rows, row.length = expected := by
  induction rows generalizing start with
  | nil => simp [raggedFrom]
  | cons row rest ih =>
    unfold raggedFrom
    by_cases h : row.length = expected
    · simp [h, ih]
    · simp [h]

namespace Dataset

instance : BEq Dataset := ⟨fun d e => d.features == e.features && d.targets == e.targets⟩

/-- The dataset with the given rows, one for each variable.  Of several faults
the first counts: no variable, no sample, a ragged row, a value that is not finite. -/
def ofFeatures (features : List (List Float)) (targets : List Float) :
    Except DatasetError Dataset :=
  if hf : features = [] then .error .noVariables
  else if ht : targets = [] then .error .noSamples
  else
    match hr : raggedFrom targets.length 0 features with
    | some (index, length) => .error (.raggedFeature index length targets.length)
    | none =>
        if h : (∀ row ∈ features, AllFinite row) ∧ AllFinite targets then
          .ok ⟨features, targets, hf, ht, raggedFrom_eq_none_iff.1 hr, h.1, h.2⟩
        else .error .notFinite

/-- Put the values of a sample at the ends of the rows, the first value at the end of the
first row and so on, as long as there are both. -/
def pushSample : List (List Float) → List Float → List (List Float)
  | row :: rows, value :: sample => (row ++ [value]) :: pushSample rows sample
  | rows, _ => rows

/-- The rows of the variables after some more samples, of which the first has the given
index, unless one of them has not the given width. -/
def collect (width : Nat) :
    Nat → List (List Float) → List (List Float) → Except DatasetError (List (List Float))
  | _, rows, [] => .ok rows
  | index, rows, sample :: rest =>
      if sample.length = width then collect width (index + 1) (pushSample rows sample) rest
      else .error (.raggedSample index sample.length width)

/-- How many inputs the first sample has. -/
def widthOf (samples : List (List Float)) : Nat := (samples.head?.map List.length).getD 0

/-- The dataset with the given rows, one for each sample.  All must be as long
as the first one. -/
def ofSamples (samples : List (List Float)) (targets : List Float) :
    Except DatasetError Dataset :=
  let width := widthOf samples
  match collect width 0 (List.replicate width []) samples with
  | .error fault => .error fault
  | .ok features => ofFeatures features targets

/-- How many variables there are. -/
def variableCount (d : Dataset) : Nat := d.features.length

/-- How many samples there are. -/
def sampleCount (d : Dataset) : Nat := d.targets.length

/-- A dataset has a variable. -/
theorem variableCount_pos (d : Dataset) : 0 < d.variableCount :=
  List.length_pos_iff.2 d.features_ne_nil

/-- A dataset has a sample. -/
theorem sampleCount_pos (d : Dataset) : 0 < d.sampleCount :=
  List.length_pos_iff.2 d.targets_ne_nil

/-- The values of a variable, one per sample. -/
def feature? (d : Dataset) (index : Nat) : Option (List Float) := d.features[index]?

/-- Every variable has one value for each sample. -/
theorem length_of_feature? {d : Dataset} {index : Nat} {row : List Float}
    (h : d.feature? index = some row) : row.length = d.sampleCount :=
  d.rectangular row (List.mem_of_getElem? h)

/-- Just the variables below the count have values. -/
theorem feature?_isSome_iff {d : Dataset} {index : Nat} :
    (d.feature? index).isSome ↔ index < d.variableCount := by
  simp [feature?, variableCount]

/-- The mean of the squared differences between targets and predictions, if
there are as many of these as of those. -/
def meanSquaredError? (d : Dataset) (predictions : List Float) : Option Float :=
  if predictions.length = d.sampleCount then
    some (mean (d.targets.zipWith (fun y p => (y - p) * (y - p)) predictions))
  else none

end Dataset

end SymbolicRegression
