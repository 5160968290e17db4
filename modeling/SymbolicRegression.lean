import SymbolicRegression.Record.Basic
import SymbolicRegression.Record.Mutation
import SymbolicRegression.Individual.Recombination
import SymbolicRegression.Proofs.Symbol
import SymbolicRegression.Proofs.Splice
import SymbolicRegression.Proofs.Generation
import SymbolicRegression.Proofs.Edit
import SymbolicRegression.Proofs.Mutation
import SymbolicRegression.Proofs.Recombination
import SymbolicRegression.Proofs.Reachable
import SymbolicRegression.Proofs.Evaluation
import SymbolicRegression.Proofs.Resolution
import SymbolicRegression.Proofs.Restoration
import SymbolicRegression.Proofs.Amount
import SymbolicRegression.Proofs.Arithmetic
import SymbolicRegression.Proofs.Sign
import SymbolicRegression.Proofs.SignedAmount
import SymbolicRegression.Proofs.Mean
import SymbolicRegression.Proofs.SquaredError
import SymbolicRegression.Proofs.Protection
import SymbolicRegression.Proofs.StandardExpression
import SymbolicRegression.Proofs.JsonReading
import SymbolicRegression.Proofs.NumeralValue
import SymbolicRegression.Proofs.Reloading
import SymbolicRegression.Proofs.RecordText
import SymbolicRegression.Proofs.Loading
import SymbolicRegression.Proofs.Registration
import SymbolicRegression.Proofs.Migration
import SymbolicRegression.Proofs.Questions
import SymbolicRegression.Proofs.LocalEdit
import SymbolicRegression.Proofs.RepeatedSum
import SymbolicRegression.Proofs.Folding
import SymbolicRegression.Proofs.Chance
import SymbolicRegression.Proofs.Growth
import SymbolicRegression.Proofs.Script
import SymbolicRegression.Proofs.Reach
import SymbolicRegression.Proofs.Verdict
import SymbolicRegression.Proofs.Surroundings
import SymbolicRegression.Proofs.Transposition
import SymbolicRegression.Proofs.Notes
import SymbolicRegression.Proofs.Attempts
import SymbolicRegression.Proofs.GivingUp
import SymbolicRegression.Proofs.Distinction
import SymbolicRegression.Proofs.Readability
import SymbolicRegression.Proofs.Enumeration
import SymbolicRegression.Proofs.Replacement
import SymbolicRegression.Proofs.Naming
