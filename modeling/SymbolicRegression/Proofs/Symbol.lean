/-
# The symbols of an expression

An expression as the list of what stands at its positions, read from the root
down and from left to right.

* `Symbol`, `Expr.symbols` : operators and leaves, and those of an expression;
* `Expr.maxVar?_lt_iff`, `Expr.maxVar?_eq_some_iff` : the greatest index of a variable is a
  bound for all of them, and one of them;
* `Expr.var_lt_of_evaluate` : where an expression has values on a dataset, its
  variables are variables of the dataset.
-/
import SymbolicRegression.Expr.Evaluation

namespace SymbolicRegression

/-- What stands at one position of an expression. -/
inductive Symbol
  | binary (op : BinaryOperator)
  | unary (op : UnaryOperator)
  | var (index : Nat)
  | const (value : Float)

namespace Expr

/-- The symbols of an expression, an operator before those of its operands. -/
def symbols : Expr → List Symbol
  | .binary op left right => .binary op :: (left.symbols ++ right.symbols)
  | .unary op operand => .unary op :: operand.symbols
  | .var index => [.var index]
  | .const value => [.const value]

/-- There is one symbol for each position. -/
theorem length_symbols (e : Expr) : e.symbols.length = e.size := by
  induction e with
  | binary op left right ihl ihr =>
    rw [symbols, List.length_cons, List.length_append, ihl, ihr, size]
  | unary op operand ih => rw [symbols, List.length_cons, ih, size]
  | var index => rfl
  | const value => rfl

/-! ## Variables -/

/-- A variable of an operation is one of an operand. -/
theorem var_mem_symbols_binary {op : BinaryOperator} {left right : Expr} {index : Nat} :
    Symbol.var index ∈ (Expr.binary op left right).symbols ↔
      Symbol.var index ∈ left.symbols ∨ Symbol.var index ∈ right.symbols := by
  simp [symbols]

theorem var_mem_symbols_unary {op : UnaryOperator} {operand : Expr} {index : Nat} :
    Symbol.var index ∈ (Expr.unary op operand).symbols ↔ Symbol.var index ∈ operand.symbols := by
  simp [symbols]

/-- A bound for the greater of two indices is one for both. -/
theorem greatest?_lt_iff {a b : Option Nat} {n : Nat} :
    (∀ top, greatest? a b = some top → top < n) ↔
      (∀ i, a = some i → i < n) ∧ (∀ j, b = some j → j < n) := by
  cases a with
  | none => simp [greatest?]
  | some i =>
    cases b with
    | none => simp [greatest?]
    | some j =>
      simp only [greatest?, Option.some.injEq, forall_eq']
      exact Nat.max_lt

/-- **The greatest index stands for all of them.**  It is below a bound exactly
when every variable of the expression is. -/
theorem maxVar?_lt_iff {e : Expr} {n : Nat} :
    (∀ top, e.maxVar? = some top → top < n) ↔
      ∀ index, Symbol.var index ∈ e.symbols → index < n := by
  induction e with
  | binary op left right ihl ihr =>
    simp only [maxVar?, greatest?_lt_iff, ihl, ihr, var_mem_symbols_binary, or_imp, forall_and]
  | unary op operand ih => simp only [maxVar?, ih, var_mem_symbols_unary]
  | var index => simp [maxVar?, symbols]
  | const value => simp [maxVar?, symbols]

/-- Where there is a variable, there is a greatest index. -/
theorem exists_maxVar?_of_mem {e : Expr} {index : Nat} (hs : Symbol.var index ∈ e.symbols) :
    ∃ top, e.maxVar? = some top := by
  have hbelow := maxVar?_lt_iff (e := e) (n := 0)
  cases hfound : e.maxVar? with
  | none =>
    rw [hfound] at hbelow
    exact absurd (hbelow.1 (by simp) index hs) (Nat.not_lt_zero index)
  | some top => exact ⟨top, rfl⟩

/-- The greatest index is one that occurs, and no other is greater. -/
theorem maxVar?_eq_some_iff {e : Expr} {top : Nat} :
    e.maxVar? = some top ↔ Symbol.var top ∈ e.symbols ∧
      ∀ index, Symbol.var index ∈ e.symbols → index ≤ top := by
  have hgreatest {found : Nat} (hfound : e.maxVar? = some found) :
      Symbol.var found ∈ e.symbols ∧ ∀ index, Symbol.var index ∈ e.symbols → index ≤ found := by
    have hbound {n : Nat} : found < n ↔ ∀ index, Symbol.var index ∈ e.symbols → index < n := by
      rw [← maxVar?_lt_iff, hfound]
      simp
    have hle (index : Nat) (hs : Symbol.var index ∈ e.symbols) : index ≤ found :=
      Nat.le_of_lt_succ (hbound.1 (Nat.lt_succ_self found) index hs)
    refine ⟨Classical.byContradiction fun hs => ?_, hle⟩
    -- if it did not occur, all indices would be less, and so would the greatest
    refine Nat.lt_irrefl found (hbound.2 fun index hindex => ?_)
    refine Nat.lt_of_le_of_ne (hle index hindex) ?_
    rintro rfl
    exact hs hindex
  constructor
  · exact hgreatest
  · rintro ⟨hs, hle⟩
    obtain ⟨found, hfound⟩ := exists_maxVar?_of_mem hs
    obtain ⟨hmem, hfoundLe⟩ := hgreatest hfound
    rw [hfound, Nat.le_antisymm (hle found hmem) (hfoundLe top hs)]

/-- An expression that has values on a dataset has only variables of the dataset. -/
theorem var_lt_of_evaluate {d : Dataset} {e : Expr} {values : List Float}
    (h : e.evaluate d = .ok values) {index : Nat} (hv : Symbol.var index ∈ e.symbols) :
    index < d.variableCount := by
  induction e generalizing values with
  | binary op left right ihl ihr =>
    rw [evaluate] at h
    -- both operands are evaluated before they are combined
    split at h
    · cases h
    · rename_i lefts hl
      split at h
      · cases h
      · rename_i rights hr
        rcases var_mem_symbols_binary.1 hv with hv | hv
        · exact ihl hl hv
        · exact ihr hr hv
  | unary op operand ih =>
    rw [evaluate] at h
    split at h
    · cases h
    · rename_i values' hx
      exact ih hx (var_mem_symbols_unary.1 hv)
  | var i =>
    have hi : index = i := by simpa [symbols] using hv
    subst hi
    rw [evaluate] at h
    split at h
    · rename_i row hrow
      exact Dataset.feature?_isSome_iff.1 (by rw [hrow]; rfl)
    · cases h
  | const value => simp [symbols] at hv

end Expr

end SymbolicRegression
