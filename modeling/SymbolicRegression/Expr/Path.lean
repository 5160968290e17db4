/-
# Positions in an expression

A position is the path of operands from the root to it.

* `Side`, `Path` : paths; the length of a path is the depth of its position;
* `Expr.get?` : the expression at a position;
* `Expr.exchange?` : the expression with another one put in at a position;
* `Expr.locations` : the paths of all positions, each before those below it.
-/
import SymbolicRegression.Expr.Basic

namespace SymbolicRegression

/-- Which operand to go down to; the only operand of a unary operator is the left one. -/
inductive Side
  | left
  | right
  deriving DecidableEq, Repr

/-- A position, by the operands on the way down from the root. -/
abbrev Path := List Side

namespace Expr

/-- The operand on a side. -/
def operand? : Expr → Side → Option Expr
  | .binary _ left _, .left => some left
  | .binary _ _ right, .right => some right
  | .unary _ operand, .left => some operand
  | _, _ => none

/-- The operands are those on the two sides, as far as there are any. -/
theorem operands_eq (e : Expr) : e.operands = [Side.left, Side.right].filterMap e.operand? := by
  cases e <;> rfl

/-- The expression at a position. -/
def get? : Expr → Path → Option Expr
  | e, [] => some e
  | e, side :: path => (e.operand? side).bind (·.get? path)

/-- The empty path leads to the expression itself. -/
theorem get?_nil (e : Expr) : e.get? [] = some e := by
  cases e <;> rfl

/-- Put `new` at a position.  The result is the expression that it displaces
and the whole expression after the exchange. -/
def exchange? : Expr → Path → Expr → Option (Expr × Expr)
  | e, [], new => some (e, new)
  | .binary op left right, .left :: path, new =>
      (left.exchange? path new).map fun (old, left) => (old, .binary op left right)
  | .binary op left right, .right :: path, new =>
      (right.exchange? path new).map fun (old, right) => (old, .binary op left right)
  | .unary op operand, .left :: path, new =>
      (operand.exchange? path new).map fun (old, operand) => (old, .unary op operand)
  | _, _, _ => none

/-- What an exchange displaces is what stood at the position; there is an
exchange exactly where there is a position. -/
theorem map_fst_exchange? (e : Expr) (path : Path) (new : Expr) :
    (e.exchange? path new).map Prod.fst = e.get? path := by
  induction path generalizing e with
  | nil => cases e <;> rfl
  | cons side path ih =>
    cases e with
    | binary op left right =>
      cases side with
      | left => simpa [exchange?, get?, operand?, Function.comp_def] using ih left
      | right => simpa [exchange?, get?, operand?, Function.comp_def] using ih right
    | unary op operand =>
      cases side with
      | left => simpa [exchange?, get?, operand?, Function.comp_def] using ih operand
      | right => rfl
    | var index => cases side <;> rfl
    | const value => cases side <;> rfl

/-- The expression with `new` at a position. -/
def replace? (e : Expr) (path : Path) (new : Expr) : Option Expr :=
  (e.exchange? path new).map Prod.snd

/-- The paths of all positions, an operator before its operands and a left
operand before a right one. -/
def locations : Expr → List Path
  | .binary _ left right =>
      [] :: (left.locations.map (.left :: ·) ++ right.locations.map (.right :: ·))
  | .unary _ operand => [] :: operand.locations.map (.left :: ·)
  | .var _ | .const _ => [[]]

/-- There are as many positions as nodes. -/
theorem length_locations (e : Expr) : e.locations.length = e.size := by
  induction e with
  | binary op left right ihl ihr => simp [locations, size, ihl, ihr]
  | unary op operand ih => simp [locations, size, ih]
  | var index => rfl
  | const value => rfl

end Expr

end SymbolicRegression
