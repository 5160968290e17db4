/-
# Records of individuals

A record keeps what is needed to restore an individual over given primitives and
a given dataset: the settings and the expression.  It also tells the fitness, but
a restored individual is scored anew.

* `Record` : the records;
* `Individual.toRecord`, `Individual.ofRecord` : from individuals and back;
* `Record.toJson`, `Record.ofJson?` : as JSON;
* `Individual.save`, `Individual.load` : as the text of a file.
-/
import SymbolicRegression.Individual.Basic
import SymbolicRegression.Record.Expression
import SymbolicRegression.Record.Settings

namespace SymbolicRegression

/-- A recorded individual. -/
structure Record where
  version : Nat
  settings : Settings
  root : Option ExprRecord
  /-- The fitness, if the individual was valid. -/
  fitness : Option Float

/-- The version of records that is written and read. -/
def currentVersion : Nat := 1

/-- Why an individual cannot be restored. -/
inductive LoadError
  /-- The record has another version. -/
  | unsupportedVersion (version : Nat)
  /-- The expression is not one over the operators. -/
  | expression (cause : ResolveError)
  /-- The settings are refused. -/
  | settings (cause : SettingsError)
  /-- The expression does not fit the settings or the dataset. -/
  | root (cause : RootError)
  /-- The text is not that of a record. -/
  | malformed
  /-- There is no text. -/
  | unreadable
  deriving DecidableEq, Repr

/-- The wording of an error.  The words of whoever found that a text or a file cannot be read
are passed on. -/
def LoadError.message (e : LoadError) (words : String := "") : String :=
  match e with
  | .unsupportedVersion version => "unsupported record version " ++ toString version
  | .expression cause => cause.message
  | .settings cause => cause.message words
  | .root cause => cause.message
  | .malformed => "malformed record: " ++ words
  | .unreadable => "I/O error: " ++ words

/-! ## Individuals and records -/

/-- A restored individual, and what happened on the way. -/
structure Restored where
  individual : Individual
  log : List Event

namespace Individual

/-- The record of an individual. -/
def toRecord (i : Individual) : Record where
  version := currentVersion
  settings := i.settings
  root := i.root.map Expr.toRecord
  fitness := if i.isValid then some i.fitness else none

/-- The individual with the expression of a record, if it has one. -/
def withRecorded (i : Individual) : Option Expr → Except LoadError Restored
  | none => .ok ⟨i, []⟩
  | some root =>
      match i.setRoot root with
      | .error cause => .error (.root cause)
      | .ok scoring => .ok ⟨scoring.individual, scoring.log⟩

/-- The expression of a record over a set of operators, if it has one. -/
def recordedRoot (ops : OperatorSet) : Option ExprRecord → Except LoadError (Option Expr)
  | none => .ok none
  | some record =>
      match record.resolve ops with
      | .error cause => .error (.expression cause)
      | .ok root => .ok (some root)

/-- The individual of a record, over given primitives and a given dataset.  Of
several faults the first counts: the version, the operators and constants, the
settings, the depth and the variables. -/
def ofRecord (primitives : PrimitiveSet) (dataset : Dataset) (record : Record) :
    Except LoadError Restored :=
  if record.version ≠ currentVersion then .error (.unsupportedVersion record.version)
  else
    match recordedRoot primitives.operators record.root with
    | .error e => .error e
    | .ok root =>
        match create primitives dataset record.settings with
        | .error cause => .error (.settings cause)
        | .ok i => i.withRecorded root

end Individual

/-! ## JSON -/

namespace Record

/-- The names of the fields, in their order. -/
def fieldNames : List String := ["version", "config", "root", "fitness"]

/-- A record as a value. -/
def toJson (r : Record) : Json :=
  .ofMembers
    [ ("version", .ofNat r.version),
      ("config", r.settings.toJson),
      ("root", match r.root with
        | some root => root.toJson
        | none => .null),
      ("fitness", match r.fitness with
        | some fitness => .encodeFloat fitness
        | none => .null) ]

/-- Read a value that may be `null`. -/
def readNullable {α : Type} (read : Json → Option α) : Json → Option (Option α)
  | .null => some none
  | json => (read json).map some

/-- Whether a value has the shape of a record: as an array it must have all fields. -/
def isComplete : Json → Bool
  | .array items => items.length = fieldNames.length
  | _ => true

/-- The record that a value describes.  Expression and fitness may be missing. -/
def ofJson? (json : Json) : Option Record := do
  guard (isComplete json)
  match ← json.fields? fieldNames with
  | [some version, some settings, root, fitness] =>
      return {
        version := ← version.natBelow? halfWordBound
        settings := ← Settings.ofJson? settings
        root := ← Json.readOr none (readNullable ExprRecord.ofJson?) root
        fitness := ← Json.readOr none (readNullable Json.float?) fitness }
  | _ => none

end Record

/-! ## Files -/

namespace Individual

/-- The text of the file that keeps an individual. -/
def save (i : Individual) : String := i.toRecord.toJson.pretty

/-- The individual of a file, given what the file holds, or nothing if it cannot be read. -/
def load (primitives : PrimitiveSet) (dataset : Dataset) (contents : Option String) :
    Except LoadError Restored :=
  match contents with
  | none => .error .unreadable
  | some text =>
      match (Json.ofText? text).bind Record.ofJson? with
      | none => .error .malformed
      | some record => ofRecord primitives dataset record

end Individual

end SymbolicRegression
