/-
# Operators

An operator is a function on doubles with a name.  Expressions show the name and
records keep only the name, so two operators of one arity are equal when their
names are.

* `UnaryOperator`, `BinaryOperator` : the operators, and how they act on batches.
-/

namespace SymbolicRegression

/-! ## One operand -/

/-- A named operator with one operand. -/
structure UnaryOperator where
  name : String
  /-- What the operator does to one value. -/
  call : Float → Float

namespace UnaryOperator

instance : BEq UnaryOperator := ⟨fun f g => f.name == g.name⟩

/-- The operator on a batch, value by value. -/
def onBatch (op : UnaryOperator) (values : List Float) : List Float := values.map op.call

/-- A batch keeps its length. -/
theorem length_onBatch (op : UnaryOperator) (values : List Float) :
    (op.onBatch values).length = values.length := by
  simp [onBatch]

end UnaryOperator

/-! ## Two operands -/

/-- A named operator with two operands. -/
structure BinaryOperator where
  name : String
  /-- What the operator does to one pair of values. -/
  call : Float → Float → Float

namespace BinaryOperator

instance : BEq BinaryOperator := ⟨fun f g => f.name == g.name⟩

/-- The operator on two batches, pair by pair.  Left values that have no
partner on the right stay as they are. -/
def onBatch (op : BinaryOperator) : List Float → List Float → List Float
  | [], _ => []
  | a :: left, [] => a :: left
  | a :: left, b :: right => op.call a b :: op.onBatch left right

/-- A batch has the length of its left operand. -/
theorem length_onBatch (op : BinaryOperator) (left right : List Float) :
    (op.onBatch left right).length = left.length := by
  induction left generalizing right with
  | nil => rfl
  | cons a left ih => cases right <;> simp [onBatch, ih]

/-- On batches of one length every value has a partner. -/
theorem onBatch_eq_zipWith (op : BinaryOperator) {left right : List Float}
    (h : left.length = right.length) : op.onBatch left right = left.zipWith op.call right := by
  induction left generalizing right with
  | nil => rfl
  | cons a left ih => cases right <;> simp_all [onBatch]

end BinaryOperator

end SymbolicRegression
