/-
# Search settings

The limits and probabilities of a search.

* `Settings` : the settings, with their defaults;
* `Settings.fault?` : the first thing wrong with them.
-/
import SymbolicRegression.Message

namespace SymbolicRegression

/-- Why settings are refused. -/
inductive SettingsError
  /-- No attempt is allowed. -/
  | noAttempts
  /-- A field that should be a probability is not from zero to one. -/
  | notProbability (field : String) (value : Float)
  /-- A text that does not describe settings. -/
  | malformed
  deriving DecidableEq, Repr

/-- The wording of an error.  The words of whoever found that a text cannot be read are passed
on. -/
def SettingsError.message (e : SettingsError) (words : String := "") : String :=
  match e with
  | .noAttempts => "tree_attempts must be at least 1"
  | .notProbability field value =>
      field ++ " must be within [0, 1], got " ++ messageText value
  | .malformed => "invalid configuration: " ++ words

/-- The settings of a search. -/
structure Settings where
  /-- The greatest depth of a position, where the root has depth zero. -/
  maxDepth : Nat := 6
  /-- How often an edit that must keep the fitness finite is tried. -/
  attempts : Nat := 10
  /-- How likely a position above the greatest depth becomes an operator. -/
  branchProbability : Float := 0.7
  /-- How likely an operator is a binary one. -/
  binaryProbability : Float := 0.5
  /-- How likely a leaf is a variable. -/
  variableProbability : Float := 0.5
  /-- How likely a mutation replaces a subtree. -/
  subtreeMutationRate : Float := 0.6
  deriving BEq, Repr

namespace Settings

/-- The fields that are probabilities, by the names that texts and messages use. -/
def probabilities (s : Settings) : List (String × Float) :=
  [ ("branch_probability", s.branchProbability),
    ("binary_probability", s.binaryProbability),
    ("variable_probability", s.variableProbability),
    ("subtree_mutation_rate", s.subtreeMutationRate) ]

/-- Whether a value is from zero to one; a NaN is not. -/
def isProbability (p : Float) : Bool := 0.0 ≤ p && p ≤ 1.0

/-- The first thing wrong with settings: that they allow no attempt, or a field
that is not a probability. -/
def fault? (s : Settings) : Option SettingsError :=
  if s.attempts = 0 then some .noAttempts
  else
    (s.probabilities.find? fun field => !isProbability field.2).map fun field =>
      .notProbability field.1 field.2

/-- Settings that a search can run with. -/
structure Valid (s : Settings) : Prop where
  attempts_pos : 0 < s.attempts
  branch : isProbability s.branchProbability = true
  binary : isProbability s.binaryProbability = true
  leaf : isProbability s.variableProbability = true
  subtree : isProbability s.subtreeMutationRate = true

/-- No fault is found just in valid settings. -/
theorem fault?_eq_none_iff {s : Settings} : s.fault? = none ↔ s.Valid := by
  unfold fault?
  constructor
  · intro h
    split at h
    · exact absurd h (by simp)
    · simp only [Option.map_eq_none_iff, List.find?_eq_none, probabilities, List.mem_cons,
        List.not_mem_nil, or_false, forall_eq_or_imp, forall_eq, Bool.not_eq_eq_eq_not,
        Bool.not_true, Bool.not_eq_false] at h
      exact ⟨by omega, h.1, h.2.1, h.2.2.1, h.2.2.2⟩
  · intro h
    have := h.attempts_pos
    rw [if_neg (by omega)]
    simp [probabilities, h.branch, h.binary, h.leaf, h.subtree]

/-- The settings, unless something is wrong with them. -/
def check (s : Settings) : Except SettingsError Settings :=
  match s.fault? with
  | some fault => .error fault
  | none => .ok s

end Settings

end SymbolicRegression
