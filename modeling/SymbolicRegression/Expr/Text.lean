/-
# The text of an expression

An expression is written as nested applications of operator names, such as
`add(x[0], 1.0)`.

* `expressionStyle` : how constants are written;
* `Expr.text` : the text of an expression.
-/
import SymbolicRegression.Decimal.Style
import SymbolicRegression.Expr.Basic

namespace SymbolicRegression

/-- How expressions write a constant: positional from a ten-thousandth up to ten
to the sixteenth, always with a point there, and otherwise with a power of ten. -/
def expressionStyle : NumeralStyle where
  tie := .up
  positionalFrom := some (-4)
  positionalBelow := some 16
  pointZero := true
  exponentPlus := false

namespace Expr

/-- The characters of an expression, and `rest` after them. -/
def write (rest : List Char) : Expr → List Char
  | .binary op left right =>
      op.name.toList ++ '(' :: left.write (',' :: ' ' :: right.write (')' :: rest))
  | .unary op operand => op.name.toList ++ '(' :: operand.write (')' :: rest)
  | .var index => 'x' :: '[' :: ((digitsOf index).map Digit.char ++ ']' :: rest)
  | .const value => expressionStyle.chars value ++ rest

/-- The characters of an expression. -/
def chars (e : Expr) : List Char := e.write []

/-- The text of an expression. -/
def text (e : Expr) : String := String.ofList e.chars

end Expr

end SymbolicRegression
