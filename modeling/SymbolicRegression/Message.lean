/-
# Numbers in messages

Messages show a double with its shortest digits, positional at every size, and
an integral one without a point.
-/
import SymbolicRegression.Decimal.Style

namespace SymbolicRegression

/-- How messages write a double. -/
def messageStyle : NumeralStyle where
  tie := .up
  positionalFrom := none
  positionalBelow := none
  pointZero := false
  exponentPlus := false

/-- The text of a double in a message. -/
def messageText (x : Float) : String := messageStyle.text x

end SymbolicRegression
