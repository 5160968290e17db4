/-
# The standard operators

Arithmetic, protected division, power and remainder, extrema, logarithms, roots,
and the trigonometric and hyperbolic functions.

* `standardUnary`, `standardBinary` : the operators in order of registration;
* `OperatorSet.standard` : the set of them.
-/
import SymbolicRegression.Operator.Kernel
import SymbolicRegression.Operator.Set

namespace SymbolicRegression

/-- The standard operators with one operand. -/
def standardUnary (lib : Elementary) : List UnaryOperator :=
  [ ⟨"negative", Kernel.negative⟩,
    ⟨"absolute", Float.abs⟩,
    ⟨"protected_sqrt", Kernel.sqrt⟩,
    ⟨"exp", Kernel.exp lib⟩,
    ⟨"protected_log", Kernel.log lib⟩,
    ⟨"protected_log2", Kernel.log2 lib⟩,
    ⟨"protected_log10", Kernel.log10 lib⟩,
    ⟨"sin", lib.sin⟩,
    ⟨"cos", lib.cos⟩,
    ⟨"tan", Kernel.tan lib⟩,
    ⟨"arcsin", Kernel.arcsin lib⟩,
    ⟨"arccos", Kernel.arccos lib⟩,
    ⟨"arctan", lib.arctan⟩,
    ⟨"sinh", Kernel.sinh lib⟩,
    ⟨"cosh", Kernel.cosh lib⟩,
    ⟨"tanh", lib.tanh⟩,
    ⟨"square", Kernel.square⟩,
    ⟨"cbrt", lib.cbrt⟩,
    ⟨"reciprocal", Kernel.reciprocal⟩ ]

/-- The standard operators with two operands. -/
def standardBinary (lib : Elementary) : List BinaryOperator :=
  [ ⟨"add", Kernel.add⟩,
    ⟨"subtract", Kernel.subtract⟩,
    ⟨"multiply", Kernel.multiply⟩,
    ⟨"protected_divide", Kernel.divide⟩,
    ⟨"protected_power", Kernel.power lib⟩,
    ⟨"maximum", larger⟩,
    ⟨"minimum", smaller⟩,
    ⟨"protected_mod", Kernel.modulo lib⟩ ]

/-- The standard operator set over a library of elementary functions. -/
def OperatorSet.standard (lib : Elementary) : OperatorSet where
  unary := standardUnary lib
  binary := standardBinary lib
  unary_ne_nil := by simp [standardUnary]
  binary_ne_nil := by simp [standardBinary]
  names_nodup := by simp [standardUnary, standardBinary]

end SymbolicRegression
