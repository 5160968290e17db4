/-
# Primitive sets

What the expressions of a search are made of, apart from variables.
-/
import SymbolicRegression.Operator.Standard
import SymbolicRegression.Palette

namespace SymbolicRegression

/-- The operators and constants of a search. -/
structure PrimitiveSet where
  operators : OperatorSet
  constants : Palette

/-- The standard operators with the notable constants. -/
def PrimitiveSet.standard (lib : Elementary) : Draw PrimitiveSet := do
  return ⟨.standard lib, ← Palette.notable⟩

end SymbolicRegression
