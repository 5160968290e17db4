/-
# Individuals

An individual of the search is an expression with its fitness, and with what the
search works on: settings, primitives and a dataset.  It may have no expression yet.

* `Individual` : the individuals;
* `Event` : what is worth reporting about a run;
* `Individual.score` : how well the expression fits the dataset;
* `Individual.rescore`, `Individual.setRoot` : keep the fitness in step with the expression.
-/
import SymbolicRegression.Expr.Evaluation
import SymbolicRegression.Expr.Path
import SymbolicRegression.Expr.Text
import SymbolicRegression.PrimitiveSet
import SymbolicRegression.Settings

namespace SymbolicRegression

/-! ## Events -/

/-- What is worth reporting about a run. -/
inductive Event
  /-- An expression, or its absence, could not be scored. -/
  | scoringFailed (root : Option Expr) (cause : EvalError)
  /-- All attempts to replace a subtree failed. -/
  | subtreeExhausted (attempts : Nat)
  /-- All attempts to find an operator to promote failed. -/
  | hoistExhausted
  /-- All attempts to collapse a subtree failed. -/
  | collapseExhausted (attempts : Nat)
  /-- All attempts to exchange subtrees failed. -/
  | recombinationExhausted (attempts : Nat)

/-- How much an event matters. -/
inductive Level
  /-- Part of the normal course. -/
  | trace
  /-- A step that came to nothing. -/
  | debug
  deriving DecidableEq, Repr

/-- The text of an expression that may be absent. -/
def rootText : Option Expr → String
  | some root => root.text
  | none => ""

namespace Event

/-- How much an event matters. -/
def level : Event → Level
  | .scoringFailed _ _ => .trace
  | .subtreeExhausted _ | .hoistExhausted | .collapseExhausted _ | .recombinationExhausted _ =>
      .debug

/-- The wording of an event. -/
def message : Event → String
  | .scoringFailed root cause => "scoring `" ++ rootText root ++ "` failed: " ++ cause.message
  | .subtreeExhausted attempts =>
      "subtree mutation found no valid candidate in " ++ toString attempts ++ " attempts"
  | .hoistExhausted => "hoist found no operator node to promote"
  | .collapseExhausted attempts =>
      "collapse found no valid candidate in " ++ toString attempts ++ " attempts"
  | .recombinationExhausted attempts =>
      "recombination found no valid swap in " ++ toString attempts ++ " attempts"

end Event

/-! ## Individuals -/

/-- The fitness of an individual that cannot be scored: infinity. -/
def invalidFitness : Float := 1.0 / 0.0

/-- An individual of the search. -/
structure Individual where
  /-- The expression, if there is one yet. -/
  root : Option Expr
  /-- The mean squared error of the expression, or `invalidFitness`. -/
  fitness : Float
  settings : Settings
  primitives : PrimitiveSet
  dataset : Dataset

/-- Why an expression cannot be the root of an individual. -/
inductive RootError
  /-- It is deeper than the settings allow. -/
  | tooDeep (depth maxDepth : Nat)
  /-- It has a variable that the dataset does not have. -/
  | unknownVariable (index count : Nat)
  deriving DecidableEq, Repr

/-- The wording of an error. -/
def RootError.message : RootError → String
  | .tooDeep depth maxDepth =>
      "depth " ++ toString depth ++ " exceeds max_depth " ++ toString maxDepth
  | .unknownVariable index count =>
      "variable x[" ++ toString index ++ "] is out of range for " ++ toString count ++ " variables"

/-- How well an expression fits a dataset. -/
structure Score where
  meanSquaredError : Float
  predictions : List Float

/-- An individual after scoring. -/
structure Scoring where
  individual : Individual
  /-- The predictions, if the expression could be scored. -/
  predictions : Option (List Float)
  log : List Event

namespace Individual

/-- An individual without an expression, unless the settings are refused. -/
def create (primitives : PrimitiveSet) (dataset : Dataset) (settings : Settings) :
    Except SettingsError Individual :=
  match settings.fault? with
  | some fault => .error fault
  | none => .ok { root := none, fitness := invalidFitness, settings, primitives, dataset }

/-- Whether the expression could be scored. -/
def isValid (i : Individual) : Bool := i.fitness.isFinite

/-- The depth of the expression. -/
def depth? (i : Individual) : Option Nat := i.root.map Expr.depth

/-- How many operators and leaves the expression has. -/
def size (i : Individual) : Nat :=
  match i.root with
  | some root => root.size
  | none => 0

/-- The text of the expression, empty where there is none. -/
def text (i : Individual) : String := rootText i.root

/-! ## Positions -/

/-- The paths of all positions in the expression. -/
def locations (i : Individual) : List Path :=
  match i.root with
  | some root => root.locations
  | none => []

/-- The expression at a position. -/
def get? (i : Individual) (path : Path) : Option Expr := i.root.bind (·.get? path)

/-- Put `new` at a position.  The result is the expression that it displaces and
the individual after the exchange, its fitness not yet brought up to date. -/
def exchange? (i : Individual) (path : Path) (new : Expr) : Option (Expr × Individual) :=
  (i.root.bind (·.exchange? path new)).map fun (old, root) => (old, { i with root := some root })

/-- The individual with `new` at a position, its fitness not yet brought up to
date.  Where there is no such position it is left as it is. -/
def put (i : Individual) (path : Path) (new : Expr) : Individual :=
  match i.exchange? path new with
  | some (_, edited) => edited
  | none => i

/-! ## Scoring -/

/-- The values of the expression on a dataset, which must all be finite. -/
def predict (i : Individual) (d : Dataset) : Except EvalError (List Float) :=
  match i.root with
  | none => .error .noRoot
  | some root =>
      match root.evaluate d with
      | .error e => .error e
      | .ok values => if AllFinite values then .ok values else .error .notFinite

/-- How well the expression fits the dataset; the error must be finite. -/
def score (i : Individual) : Except EvalError Score :=
  match i.predict i.dataset with
  | .error e => .error e
  | .ok predictions =>
      match i.dataset.meanSquaredError? predictions with
      | none => .error (.shapeMismatch predictions.length i.dataset.sampleCount)
      | some meanSquaredError =>
          if meanSquaredError.isFinite then .ok { meanSquaredError, predictions }
          else .error .notFinite

/-- Bring the fitness up to date with the expression. -/
def rescore (i : Individual) : Scoring :=
  match i.score with
  | .ok score =>
      { individual := { i with fitness := score.meanSquaredError }
        predictions := some score.predictions
        log := [] }
  | .error cause =>
      { individual := { i with fitness := invalidFitness }
        predictions := none
        log := [.scoringFailed i.root cause] }

/-- Why an expression cannot be the root: the depth is looked at before the variables. -/
def rootFault? (i : Individual) (root : Expr) : Option RootError :=
  if i.settings.maxDepth < root.depth then some (.tooDeep root.depth i.settings.maxDepth)
  else
    match root.maxVar? with
    | none => none
    | some index =>
        if index < i.dataset.variableCount then none
        else some (.unknownVariable index i.dataset.variableCount)

/-- The individual with another expression, scored, unless the expression is refused. -/
def setRoot (i : Individual) (root : Expr) : Except RootError Scoring :=
  match i.rootFault? root with
  | some fault => .error fault
  | none => .ok { i with root := some root }.rescore

end Individual

end SymbolicRegression
