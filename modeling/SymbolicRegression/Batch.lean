/-
# Batches of values

A batch holds one value for each sample.

* `total`, `mean` : the sum of a batch from left to right, and its mean;
* `AllFinite` : no value is infinite or a NaN.
-/

namespace SymbolicRegression

/-- The sum of a batch, from left to right.  It starts from minus zero, which
adding leaves every value as it is. -/
def total (values : List Float) : Float := values.foldl (· + ·) (-0.0)

/-- The mean of a batch. -/
def mean (values : List Float) : Float := total values / Float.ofNat values.length

/-- No value of a batch is infinite or a NaN. -/
def AllFinite (values : List Float) : Prop := ∀ v ∈ values, v.isFinite = true

instance (values : List Float) : Decidable (AllFinite values) :=
  inferInstanceAs (Decidable (∀ v ∈ values, v.isFinite = true))

end SymbolicRegression
