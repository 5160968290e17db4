/-
# Elementary functions

The operators are built over a library of elementary functions.  Keeping the
library a parameter lets one state what is assumed of it.

* `Elementary` : the functions that a library provides;
* `Elementary.platform` : the ones of the machine, with cube roots rounded to nearest.
-/
import SymbolicRegression.Operator.CubeRoot

namespace SymbolicRegression

/-- The elementary functions that the standard operators are built from. -/
structure Elementary where
  exp : Float → Float
  log : Float → Float
  log2 : Float → Float
  log10 : Float → Float
  sin : Float → Float
  cos : Float → Float
  tan : Float → Float
  arcsin : Float → Float
  arccos : Float → Float
  arctan : Float → Float
  sinh : Float → Float
  cosh : Float → Float
  tanh : Float → Float
  cbrt : Float → Float
  floor : Float → Float
  pow : Float → Float → Float

/-- The elementary functions of the machine; cube roots are those of `cubeRoot`. -/
def Elementary.platform : Elementary where
  exp := Float.exp
  log := Float.log
  log2 := Float.log2
  log10 := Float.log10
  sin := Float.sin
  cos := Float.cos
  tan := Float.tan
  arcsin := Float.asin
  arccos := Float.acos
  arctan := Float.atan
  sinh := Float.sinh
  cosh := Float.cosh
  tanh := Float.tanh
  cbrt := cubeRoot
  floor := Float.floor
  pow := Float.pow

end SymbolicRegression
