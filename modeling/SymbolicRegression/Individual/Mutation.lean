/-
# Mutation

Five ways to change an expression at random.  Replacing or collapsing a subtree
insists on a finite fitness: an edit without one is undone and another one is
tried.  The other ways keep what they get.

* `Mutation` : the ways;
* `Individual.searchEdit` : edits that are tried and undone;
* `Individual.applyMutation` : change an individual in a given way;
* `Individual.mutate` : change it in a random way.
-/
import SymbolicRegression.Individual.Generation

namespace SymbolicRegression

/-- The ways to change an expression. -/
inductive Mutation
  /-- Put a random expression at a random position. -/
  | subtree
  /-- Give a random operator position a random operator of the same arity. -/
  | point
  /-- Exchange the operands of a random binary operator. -/
  | permutation
  /-- Make a random operator position the root. -/
  | hoist
  /-- Put the mean of its values in the place of a random operator position. -/
  | collapse
  deriving DecidableEq, Repr

namespace Mutation

/-- All ways. -/
def all : List Mutation := [.subtree, .point, .permutation, .hoist, .collapse]

/-- The ways that are equally likely when no subtree is replaced. -/
def secondary : List Mutation := [.point, .permutation, .hoist, .collapse]

/-- The word for a way. -/
def word : Mutation → String
  | .subtree => "subtree"
  | .point => "point"
  | .permutation => "permutation"
  | .hoist => "hoist"
  | .collapse => "collapse"

end Mutation

/-- What became of a mutation. -/
structure Outcome where
  individual : Individual
  /-- Whether the expression was edited. -/
  changed : Bool
  log : List Event

/-- A scored edit as an outcome. -/
def Scoring.outcome (s : Scoring) : Outcome := ⟨s.individual, true, s.log⟩

namespace Individual

/-- Leave the individual as it is. -/
def unchanged (i : Individual) (log : List Event) : Outcome := ⟨i, false, log⟩

/-- Put `new` at a position and keep the result, whatever its fitness. -/
def commit (i : Individual) (path : Path) (new : Expr) : Outcome := (i.put path new).rescore.outcome

/-! ## Edits that must keep the fitness finite -/

/-- Where a search for an edit stands between two tries. -/
structure Progress where
  individual : Individual
  /-- What happened so far. -/
  log : List Event

/-- Put `new` at a position.  A finite fitness ends the search.  Otherwise what
was displaced is put back, with the fitness from before the search, and the
search goes on. -/
def tryAt (fitness : Float) (t : Progress) (path : Path) (new : Expr) : Outcome ⊕ Progress :=
  match t.individual.exchange? path new with
  | none => .inr t
  | some (old, candidate) =>
      let scoring := candidate.rescore
      let log := t.log ++ scoring.log
      if scoring.individual.isValid then .inl ⟨scoring.individual, true, log⟩
      else .inr ⟨{ scoring.individual.put path old with fitness }, log⟩

/-- One try: what `propose` has for a random one of some positions.  A position
for which it has nothing uses up the try. -/
def tryEdit (propose : Individual → Path → Draw (Option Expr)) (paths : List Path)
    (fitness : Float) (t : Progress) : Draw (Outcome ⊕ Progress) := do
  match ← Draw.element? paths with
  | none => return .inl (t.individual.unchanged t.log)
  | some path =>
      match ← propose t.individual path with
      | none => return .inr t
      | some new => return tryAt fitness t path new

/-- Try edits until one of them gives a finite fitness, as often as attempts are
allowed.  The positions, and the fitness to go back to, are those from before the
first try. -/
def searchEdit (i : Individual) (propose : Individual → Path → Draw (Option Expr))
    (exhausted : Nat → Event) : Draw Outcome :=
  Draw.retry (tryEdit propose i.locations i.fitness)
    (fun t => t.individual.unchanged (t.log ++ [exhausted i.settings.attempts]))
    i.settings.attempts ⟨i, []⟩

/-- A random expression for a position that keeps the depth within its limit. -/
def freshSubtree (i : Individual) (path : Path) : Draw (Option Expr) :=
  return some (← i.randomExpr (i.settings.maxDepth - path.length))

/-- Replace a random subtree by a random one. -/
def mutateSubtree (i : Individual) : Draw Outcome := i.searchEdit freshSubtree .subtreeExhausted

/-- The mean of the values of an expression, or zero where it is not a finite number. -/
def collapsedValue (d : Dataset) (e : Expr) : Float :=
  match e.evaluate d with
  | .error _ => 0.0
  | .ok values => if (mean values).isFinite then mean values else 0.0

/-- The mean of the values of an operator position in its place; nothing for a leaf. -/
def collapsed? (i : Individual) (path : Path) : Option Expr :=
  match i.get? path with
  | none => none
  | some e => if e.isLeaf then none else some (.const (collapsedValue i.dataset e))

/-- Replace a random operator position by the mean of its values.  A leaf uses
up an attempt. -/
def mutateCollapse (i : Individual) : Draw Outcome :=
  i.searchEdit (fun j path => return j.collapsed? path) .collapseExhausted

/-! ## Point and permutation -/

/-- Give a random operator position a random operator of the same arity.  A leaf
is left as it is, but the fitness is brought up to date. -/
def mutatePoint (i : Individual) : Draw Outcome := do
  match ← Draw.element? i.locations with
  | none => return i.unchanged []
  | some path =>
      match i.get? path with
      | some (.binary _ left right) =>
          return i.commit path (.binary (← i.primitives.operators.randomBinary) left right)
      | some (.unary _ operand) =>
          return i.commit path (.unary (← i.primitives.operators.randomUnary) operand)
      | _ => return i.rescore.individual.unchanged i.rescore.log

/-- Whether a binary operator stands at a position. -/
def isBinaryAt (i : Individual) (path : Path) : Bool :=
  match i.get? path with
  | some e => e.isBinary
  | none => false

/-- Exchange the operands of a random binary operator, if there is one. -/
def mutatePermutation (i : Individual) : Draw Outcome := do
  match ← Draw.element? (i.locations.filter i.isBinaryAt) with
  | none => return i.unchanged []
  | some path =>
      match i.get? path with
      | some (.binary op left right) => return i.commit path (.binary op right left)
      | _ => return i.rescore.outcome

/-! ## Hoist -/

/-- One try to make a random position the root; a leaf will not do. -/
def tryHoist (i : Individual) : Draw (Outcome ⊕ Unit) := do
  match ← Draw.element? i.locations with
  | none => return .inl (i.unchanged [])
  | some path =>
      match i.get? path with
      | none => return .inr ()
      | some e =>
          if e.isLeaf then return .inr ()
          else return .inl { i with root := some e }.rescore.outcome

/-- Make a random operator position the root.  A leaf is drawn again, as often
as attempts are allowed. -/
def mutateHoist (i : Individual) : Draw Outcome :=
  Draw.retry (fun _ => i.tryHoist) (fun _ => i.unchanged [.hoistExhausted])
    (i.settings.attempts + 1) ()

/-! ## Choosing a way -/

/-- Change an individual in a given way. -/
def applyMutation (i : Individual) : Mutation → Draw Outcome
  | .subtree => i.mutateSubtree
  | .point => i.mutatePoint
  | .permutation => i.mutatePermutation
  | .hoist => i.mutateHoist
  | .collapse => i.mutateCollapse

/-- A random way: a subtree with the rate of the settings, otherwise one of the
secondary ways. -/
def randomMutation (i : Individual) : Draw Mutation := do
  if ← Draw.flip i.settings.subtreeMutationRate then return .subtree
  else Draw.member Mutation.secondary (by simp [Mutation.secondary])

/-- Change an individual in a random way, and tell in which. -/
def mutate (i : Individual) : Draw (Mutation × Outcome) := do
  let way ← i.randomMutation
  let outcome ← i.applyMutation way
  return (way, outcome)

end Individual

end SymbolicRegression
