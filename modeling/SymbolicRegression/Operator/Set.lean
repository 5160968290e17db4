/-
# Operator sets

The operators that a search may use.  Names are unique within a set, over both
arities together, so a name says which operator is meant.

* `OperatorSet` : the sets;
* `OperatorSet.ofLists` : the set of two lists of operators, or what is wrong with them;
* `OperatorSet.findUnary?`, `OperatorSet.findBinary?` : the operator of a name;
* `OperatorSet.randomUnary`, `OperatorSet.randomBinary` : an operator at random.
-/
import SymbolicRegression.Operator.Basic
import SymbolicRegression.Random.Draw

namespace SymbolicRegression

/-- Why two lists of operators do not make a set. -/
inductive OperatorSetError
  /-- There is no unary operator. -/
  | noUnary
  /-- There is no binary operator. -/
  | noBinary
  /-- A name is used twice. -/
  | duplicate (name : String)
  deriving DecidableEq, Repr

/-- The wording of an error. -/
def OperatorSetError.message : OperatorSetError → String
  | .noUnary => "the unary operator set is empty"
  | .noBinary => "the binary operator set is empty"
  | .duplicate name => "duplicate operator name `" ++ name ++ "`"

/-- The operators of a search, in order of registration. -/
structure OperatorSet where
  unary : List UnaryOperator
  binary : List BinaryOperator
  unary_ne_nil : unary ≠ []
  binary_ne_nil : binary ≠ []
  names_nodup : (unary.map (·.name) ++ binary.map (·.name)).Nodup

/-! ## Repeated names -/

/-- The first name of a list that is in `seen` or stands earlier in the list. -/
def firstRepeated (seen : List String) : List String → Option String
  | [] => none
  | name :: rest => if name ∈ seen then some name else firstRepeated (name :: seen) rest

/-- No name is repeated if the names differ from each other and from those before. -/
theorem firstRepeated_eq_none_iff {seen names : List String} :
    firstRepeated seen names = none ↔ names.Nodup ∧ ∀ name ∈ names, name ∉ seen := by
  induction names generalizing seen with
  | nil => simp [firstRepeated]
  | cons name rest ih =>
    unfold firstRepeated
    by_cases h : name ∈ seen
    · simp [h]
    · simp only [h, if_false, ih, List.nodup_cons, List.mem_cons]
      grind

namespace OperatorSet

/-- The set of two lists of operators.  Of several faults the first counts: no
unary operator, no binary operator, a name that repeats an earlier one. -/
def ofLists (unary : List UnaryOperator) (binary : List BinaryOperator) :
    Except OperatorSetError OperatorSet :=
  if hu : unary = [] then .error .noUnary
  else if hb : binary = [] then .error .noBinary
  else
    match h : firstRepeated [] (unary.map (·.name) ++ binary.map (·.name)) with
    | some name => .error (.duplicate name)
    | none => .ok ⟨unary, binary, hu, hb, (firstRepeated_eq_none_iff.1 h).1⟩

/-- The names of a set: those of the unary operators, then those of the binary ones. -/
def names (ops : OperatorSet) : List String :=
  ops.unary.map (·.name) ++ ops.binary.map (·.name)

/-- The unary operator of a name. -/
def findUnary? (ops : OperatorSet) (name : String) : Option UnaryOperator :=
  ops.unary.find? (·.name == name)

/-- The binary operator of a name. -/
def findBinary? (ops : OperatorSet) (name : String) : Option BinaryOperator :=
  ops.binary.find? (·.name == name)

/-- A unary operator of the set, each as likely as the others. -/
def randomUnary (ops : OperatorSet) : Draw UnaryOperator := Draw.member ops.unary ops.unary_ne_nil

/-- A binary operator of the set, each as likely as the others. -/
def randomBinary (ops : OperatorSet) : Draw BinaryOperator :=
  Draw.member ops.binary ops.binary_ne_nil

end OperatorSet

end SymbolicRegression
