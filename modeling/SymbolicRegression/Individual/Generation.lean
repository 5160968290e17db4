/-
# Random expressions

* `Individual.randomExpr` : a random expression with a given number of levels
  below its root;
* `Individual.populate` : an individual with a random expression.
-/
import SymbolicRegression.Individual.Basic

namespace SymbolicRegression

namespace Individual

/-- A random leaf: a variable of the dataset or a constant of the palette. -/
def randomLeaf (i : Individual) : Draw Expr := do
  if ← Draw.flip i.settings.variableProbability then
    return .var (← Draw.number i.dataset.variableCount)
  else
    return .const (← i.primitives.constants.random)

/-- A random expression with at most `levels` levels below its root.  While
levels are left, each position becomes an operator with the branch probability;
the operator is chosen before its operands, the left operand before the right one. -/
def randomExpr (i : Individual) : Nat → Draw Expr
  | 0 => i.randomLeaf
  | levels + 1 => do
      if ← Draw.flip i.settings.branchProbability then
        if ← Draw.flip i.settings.binaryProbability then
          let op ← i.primitives.operators.randomBinary
          let left ← i.randomExpr levels
          let right ← i.randomExpr levels
          return .binary op left right
        else
          let op ← i.primitives.operators.randomUnary
          let operand ← i.randomExpr levels
          return .unary op operand
      else
        i.randomLeaf

/-- A random expression whose root stands at one depth and whose leaves stand at
another one at most; a leaf where the first is not above the second. -/
def generate (i : Individual) (rootDepth maxDepth : Nat) : Draw Expr :=
  i.randomExpr (maxDepth - rootDepth)

/-- The individual with a random expression as deep as the settings allow, scored. -/
def populate (i : Individual) : Draw Scoring := do
  let root ← i.generate 0 i.settings.maxDepth
  return { i with root := some root }.rescore

end Individual

end SymbolicRegression
