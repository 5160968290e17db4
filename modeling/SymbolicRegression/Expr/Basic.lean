/-
# Expressions

Arithmetic expressions over the variables of a dataset.

* `Expr` : the expressions;
* `Expr.operands` : what an operator is applied to;
* `Expr.size`, `Expr.height`, `Expr.depth`, `Expr.maxVar?` : their measures;
* `Expr.size_eq`, `Expr.height_eq`, `Expr.maxVar?_eq` : the measures by those of the operands.
-/
import SymbolicRegression.Operator.Basic

namespace SymbolicRegression

/-- An expression. -/
inductive Expr
  /-- An operator with two operands. -/
  | binary (op : BinaryOperator) (left right : Expr)
  /-- An operator with one operand. -/
  | unary (op : UnaryOperator) (operand : Expr)
  /-- A variable, by its index. -/
  | var (index : Nat)
  /-- A constant. -/
  | const (value : Float)
  deriving Inhabited

namespace Expr

/-- Equality of expressions.  Operators are compared by name, and constants as
numbers: a NaN differs from itself, and the two zeros are equal. -/
def same : Expr → Expr → Bool
  | .binary f a b, .binary g c d => f == g && a.same c && b.same d
  | .unary f a, .unary g b => f == g && a.same b
  | .var i, .var j => i == j
  | .const x, .const y => x == y
  | _, _ => false

instance : BEq Expr := ⟨same⟩

/-- Whether an expression has no operands. -/
def isLeaf : Expr → Bool
  | .var _ | .const _ => true
  | .unary _ _ | .binary _ _ _ => false

/-- Whether an expression is an operator with two operands. -/
def isBinary : Expr → Bool
  | .binary _ _ _ => true
  | _ => false

/-- The operands of an expression, from left to right. -/
def operands : Expr → List Expr
  | .binary _ left right => [left, right]
  | .unary _ operand => [operand]
  | .var _ | .const _ => []

/-! ## Measures -/

/-- How many operators and leaves an expression has. -/
def size : Expr → Nat
  | .binary _ left right => left.size + right.size + 1
  | .unary _ operand => operand.size + 1
  | .var _ | .const _ => 1

/-- How many levels an expression has; a leaf has one. -/
def height : Expr → Nat
  | .binary _ left right => max left.height right.height + 1
  | .unary _ operand => operand.height + 1
  | .var _ | .const _ => 1

theorem height_pos (e : Expr) : 0 < e.height := by
  cases e <;> simp [height]

/-- The depth of the deepest leaf, where the root has depth zero. -/
def depth (e : Expr) : Nat := e.height - 1

/-- The greater of two indices that may be absent. -/
def greatest? : Option Nat → Option Nat → Option Nat
  | some i, some j => some (max i j)
  | some i, none => some i
  | none, j => j

/-- The greatest index of a variable in an expression. -/
def maxVar? : Expr → Option Nat
  | .binary _ left right => greatest? left.maxVar? right.maxVar?
  | .unary _ operand => operand.maxVar?
  | .var index => some index
  | .const _ => none

/-! ## Measures by operands -/

/-- The leaves are the expressions without operands. -/
theorem isLeaf_eq (e : Expr) : e.isLeaf = e.operands.isEmpty := by
  cases e <;> rfl

/-- An expression takes one position more than its operands together. -/
theorem size_eq (e : Expr) : e.size = (e.operands.map size).foldl (· + ·) 0 + 1 := by
  cases e with
  | binary op left right => simp [size, operands]
  | unary op operand => simp [size, operands]
  | var index => rfl
  | const value => rfl

/-- An expression has one level more than the highest of its operands. -/
theorem height_eq (e : Expr) : e.height = (e.operands.map height).max?.getD 0 + 1 := by
  cases e with
  | binary op left right => simp [height, operands, List.max?_cons]
  | unary op operand => simp [height, operands]
  | var index => rfl
  | const value => rfl

/-- The greatest index below an operator is the greatest of those in its operands. -/
theorem maxVar?_eq {e : Expr} (h : e.isLeaf = false) :
    e.maxVar? = (e.operands.filterMap maxVar?).max? := by
  cases e with
  | binary op left right =>
    rw [maxVar?, operands]
    cases hleft : left.maxVar? <;> cases hright : right.maxVar? <;>
      simp [hleft, hright, greatest?, List.max?_cons]
  | unary op operand =>
    rw [maxVar?, operands]
    cases hoperand : operand.maxVar? <;> simp [hoperand]
  | var index => cases h
  | const value => cases h

end Expr

end SymbolicRegression
