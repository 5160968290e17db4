/-
# Protected functions

Variants of arithmetic and elementary functions that take finite values to
finite values: near a singularity, and where a result overflows, they give a
harmless value instead of a NaN or an infinity.

* `orZero`, `larger`, `smaller`, `toUnit` : the guards;
* `Kernel` : the protected functions.
-/
import SymbolicRegression.Operator.Elementary

namespace SymbolicRegression

/-! ## Guards -/

/-- The magnitude up to which a divisor counts as zero, and the least argument of a logarithm. -/
def tiny : Float := 1e-12

/-- `x`, or zero where `x` is not finite. -/
def orZero (x : Float) : Float := if x.isFinite then x else 0.0

/-- The larger of two values, the second one when they are equal; a NaN loses to any value. -/
def larger (a b : Float) : Float := if b.isNaN || a > b then a else b

/-- The smaller of two values, the second one when they are equal; a NaN loses to any value. -/
def smaller (a b : Float) : Float := if b.isNaN || a < b then a else b

/-- The point of the interval from minus one to one that is nearest to `x`; a NaN stays a NaN. -/
def toUnit (x : Float) : Float := if x < -1.0 then -1.0 else if x > 1.0 then 1.0 else x

namespace Kernel

/-! ## Arithmetic -/

def add (a b : Float) : Float := orZero (a + b)

def subtract (a b : Float) : Float := orZero (a - b)

def multiply (a b : Float) : Float := orZero (a * b)

def negative (x : Float) : Float := -x

def square (x : Float) : Float := orZero (x * x)

/-- Division, zero where the divisor is tiny. -/
def divide (a b : Float) : Float := if b.abs > tiny then orZero (a / b) else 0.0

/-- One over `x`, zero where `x` is tiny. -/
def reciprocal (x : Float) : Float := divide 1.0 x

/-- The square root, zero of negative arguments. -/
def sqrt (x : Float) : Float := (larger x 0.0).sqrt

/-! ## Over a library of elementary functions -/

section

variable (lib : Elementary)

/-- The remainder of a division rounded down, so with the sign of the divisor;
zero where the divisor is tiny. -/
def modulo (a b : Float) : Float :=
  if b.abs > tiny then orZero (a - b * lib.floor (a / b)) else 0.0

/-- The power, zero where it is undefined or overflows. -/
def power (a b : Float) : Float := orZero (lib.pow a b)

def exp (x : Float) : Float := orZero (lib.exp x)

/-- The natural logarithm of `x`, which counts as `tiny` at least. -/
def log (x : Float) : Float := lib.log (larger x tiny)

/-- The binary logarithm of `x`, which counts as `tiny` at least. -/
def log2 (x : Float) : Float := lib.log2 (larger x tiny)

/-- The decimal logarithm of `x`, which counts as `tiny` at least. -/
def log10 (x : Float) : Float := lib.log10 (larger x tiny)

def tan (x : Float) : Float := orZero (lib.tan x)

/-- The inverse sine of the nearest value that is a sine. -/
def arcsin (x : Float) : Float := lib.arcsin (toUnit x)

/-- The inverse cosine of the nearest value that is a cosine. -/
def arccos (x : Float) : Float := lib.arccos (toUnit x)

def sinh (x : Float) : Float := orZero (lib.sinh x)

def cosh (x : Float) : Float := orZero (lib.cosh x)

end

end Kernel

end SymbolicRegression
