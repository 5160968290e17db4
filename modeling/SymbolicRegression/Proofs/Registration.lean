/-
# Registered operators

An expression whose operators are registered in a set may still have a constant that
is infinite or a NaN, and a record of it is then refused: its names are found, but the
first such constant is not.  Giving an individual an expression, on the other hand, only
looks at its depth and its variables.  So an individual can be given an expression that
its own record does not lead back to.

* `OperatorSet.Registers`, `Expr.IsRegistered` : whether the operators are those of a set;
* `Expr.nonFinite?` : the first constant that is infinite or a NaN;
* `Expr.isOver_iff` : over a set are the registered expressions with finite constants;
* `Expr.resolve_toRecord_of_isRegistered` : what the record of a registered expression
  leads to;
* `Individual.ofRecord_toRecord_of_nonFinite?` : why such an individual is not restored.

Main statement:

* `Individual.setRoot_restores_iff` : **an expression that was accepted can be restored
  exactly when its constants are finite.**
-/
import SymbolicRegression.Operator.Kernel
import SymbolicRegression.Proofs.Restoration

namespace SymbolicRegression

namespace OperatorSet

variable {ops : OperatorSet}

/-- Whether what stands at a position is registered, where it is an operator. -/
def Registers (ops : OperatorSet) : Symbol → Prop
  | .binary op => op ∈ ops.binary
  | .unary op => op ∈ ops.unary
  | .var _ => True
  | .const _ => True

/-- What a set covers is what is registered there, but for constants that are not finite. -/
theorem covers_iff {symbol : Symbol} :
    ops.Covers symbol ↔
      ops.Registers symbol ∧ ∀ value, symbol = .const value → value.isFinite = true := by
  cases symbol with
  | binary op => simp [Covers, Registers]
  | unary op => simp [Covers, Registers]
  | var index => simp [Covers, Registers]
  | const value => simp [Covers, Registers]

end OperatorSet

/-! ## Registered expressions -/

namespace Expr

variable {ops : OperatorSet} {e : Expr}

/-- An expression whose operators are registered in a set. -/
def IsRegistered (ops : OperatorSet) (e : Expr) : Prop :=
  ∀ symbol ∈ e.symbols, ops.Registers symbol

/-- An application of a binary operator is registered if the operator and both operands are.
-/
theorem isRegistered_binary {op : BinaryOperator} {left right : Expr} :
    (Expr.binary op left right).IsRegistered ops ↔
      op ∈ ops.binary ∧ left.IsRegistered ops ∧ right.IsRegistered ops := by
  simp only [IsRegistered, symbols, List.forall_mem_cons, List.forall_mem_append]
  rfl

/-- An application of a unary operator is registered if the operator and its operand are. -/
theorem isRegistered_unary {op : UnaryOperator} {operand : Expr} :
    (Expr.unary op operand).IsRegistered ops ↔ op ∈ ops.unary ∧ operand.IsRegistered ops := by
  simp only [IsRegistered, symbols, List.forall_mem_cons]
  rfl

/-- A variable needs no operator. -/
theorem isRegistered_var {index : Nat} : (Expr.var index).IsRegistered ops := by
  intro symbol hs
  rw [List.mem_singleton.1 hs]
  trivial

/-- An expression all of whose constants are finite. -/
def HasFiniteConstants (e : Expr) : Prop :=
  ∀ value, Symbol.const value ∈ e.symbols → value.isFinite = true

/-- The operands of a binary operator have all its constants. -/
theorem hasFiniteConstants_binary {op : BinaryOperator} {left right : Expr} :
    (Expr.binary op left right).HasFiniteConstants ↔
      left.HasFiniteConstants ∧ right.HasFiniteConstants := by
  simp only [HasFiniteConstants, symbols, List.mem_cons, List.mem_append, reduceCtorEq, false_or,
    or_imp, forall_and]

/-- The operand of a unary operator has all its constants. -/
theorem hasFiniteConstants_unary {op : UnaryOperator} {operand : Expr} :
    (Expr.unary op operand).HasFiniteConstants ↔ operand.HasFiniteConstants := by
  simp only [HasFiniteConstants, symbols, List.mem_cons, reduceCtorEq, false_or]

/-- A finite constant. -/
theorem hasFiniteConstants_const {value : Float} :
    (Expr.const value).HasFiniteConstants ↔ value.isFinite = true := by
  simp [HasFiniteConstants, symbols]

/-- **Over a set** are the expressions whose operators are registered there and whose
constants are finite. -/
theorem isOver_iff : e.IsOver ops ↔ e.IsRegistered ops ∧ e.HasFiniteConstants := by
  unfold IsOver IsRegistered HasFiniteConstants
  simp only [OperatorSet.covers_iff]
  constructor
  · intro h
    exact ⟨fun symbol hs => (h symbol hs).1, fun value hs => (h _ hs).2 value rfl⟩
  · rintro ⟨hregistered, hfinite⟩ symbol hs
    refine ⟨hregistered symbol hs, ?_⟩
    rintro value rfl
    exact hfinite value hs

/-- The first constant, from left to right, that is infinite or a NaN. -/
def nonFinite? : Expr → Option Float
  | .binary _ left right => left.nonFinite?.or right.nonFinite?
  | .unary _ operand => operand.nonFinite?
  | .var _ => none
  | .const value => if value.isFinite then none else some value

/-- There is no such constant exactly when all constants are finite. -/
theorem nonFinite?_eq_none_iff : e.nonFinite? = none ↔ e.HasFiniteConstants := by
  induction e with
  | binary op left right ihl ihr =>
    rw [nonFinite?, Option.or_eq_none_iff, ihl, ihr, hasFiniteConstants_binary]
  | unary op operand ih => rw [nonFinite?, ih, hasFiniteConstants_unary]
  | var index => simp [nonFinite?, HasFiniteConstants, symbols]
  | const value => simp [nonFinite?, hasFiniteConstants_const]

/-- **What the record of a registered expression leads to.**  Every name is found, so it
leads back to the expression, unless a constant is not finite; then the first such
constant is what is wrong with it. -/
theorem resolve_toRecord_of_isRegistered (h : e.IsRegistered ops) :
    e.toRecord.resolve ops =
      match e.nonFinite? with
      | some value => .error (.notFinite value)
      | none => .ok e := by
  induction e with
  | binary op left right ihl ihr =>
    obtain ⟨hop, hleft, hright⟩ := isRegistered_binary.1 h
    have hfind : ops.findBinary? op.name = some op :=
      OperatorSet.findBinary?_eq_some_iff.2 ⟨hop, rfl⟩
    rw [toRecord, ExprRecord.resolve, hfind, nonFinite?]
    simp only [ihl hleft, ihr hright]
    -- the left operand is looked at first
    cases left.nonFinite? with
    | some value => rfl
    | none =>
      cases right.nonFinite? with
      | some value => rfl
      | none => rfl
  | unary op operand ih =>
    obtain ⟨hop, hoperand⟩ := isRegistered_unary.1 h
    have hfind : ops.findUnary? op.name = some op :=
      OperatorSet.findUnary?_eq_some_iff.2 ⟨hop, rfl⟩
    rw [toRecord, ExprRecord.resolve, hfind, nonFinite?]
    simp only [ih hoperand]
    cases operand.nonFinite? with
    | some value => rfl
    | none => rfl
  | var index => rfl
  | const value =>
    rw [toRecord, ExprRecord.resolve, nonFinite?]
    by_cases hfinite : value.isFinite = true
    · rw [if_pos hfinite, if_pos hfinite]
    · rw [if_neg hfinite, if_neg hfinite]

end Expr

namespace Individual

variable {i : Individual} {root : Expr}

/-! ## Restoring -/

/-- Where all names are found, the first constant that is not finite is why an individual
is not restored from its record. -/
theorem ofRecord_toRecord_of_nonFinite? (hroot : i.root = some root)
    (hregistered : root.IsRegistered i.primitives.operators) {value : Float}
    (hvalue : root.nonFinite? = some value) :
    ofRecord i.primitives i.dataset i.toRecord = .error (.expression (.notFinite value)) := by
  have hresolve : root.toRecord.resolve i.primitives.operators = .error (.notFinite value) := by
    rw [Expr.resolve_toRecord_of_isRegistered hregistered, hvalue]
  unfold ofRecord toRecord
  rw [if_neg (· rfl), hroot, Option.map_some, recordedRoot, hresolve]

/-! ## A sample -/

/-- Two of the protected operators. -/
def guarded : PrimitiveSet where
  operators :=
    { unary := [⟨"negative", Kernel.negative⟩]
      binary := [⟨"minimum", smaller⟩]
      unary_ne_nil := by simp
      binary_ne_nil := by simp
      names_nodup := by simp }
  constants := ⟨[1.0], by simp⟩

/-- An individual over these operators that has no expression yet. -/
def blank : Individual := ⟨none, invalidFitness, {}, guarded, twoSquares⟩

/-- A search can begin with the blank individual. -/
theorem reachable_blank : Reachable blank :=
  .create (create_eq_ok valid_default)

/-- The smaller one of the variable and infinity. -/
def capped : Expr := .binary ⟨"minimum", smaller⟩ (.var 0) (.const (1.0 / 0.0))

/-- Its operator is one of the two. -/
theorem isRegistered_capped : capped.IsRegistered guarded.operators :=
  Expr.isRegistered_binary.2 ⟨List.mem_singleton.2 rfl, Expr.isRegistered_var, by
    intro symbol hs
    cases List.mem_singleton.1 hs
    trivial⟩

/-- The blank individual has room for it. -/
theorem admits_capped : blank.Admits capped where
  depth_le := by decide
  var_lt := by
    intro index hs
    simp only [capped, Expr.symbols, List.mem_cons, List.mem_append, reduceCtorEq, false_or,
      List.not_mem_nil, or_false, Symbol.var.injEq] at hs
    rw [hs]
    decide

/-! ## Main statement -/

/-- **An expression that was accepted can be restored exactly when its constants are finite.**
Let an individual of a search be given an expression whose operators are registered in its
own set, within the limits.  Its record leads back to it, with the same expression, if all
constants are finite; otherwise the record is refused for the first constant that is not. -/
theorem setRoot_restores_iff (hi : Reachable i)
    (hregistered : root.IsRegistered i.primitives.operators) {scoring : Scoring}
    (hset : i.setRoot root = .ok scoring) :
    let j := scoring.individual
    j.root = some root ∧
    ((∃ restored, ofRecord j.primitives j.dataset j.toRecord = .ok restored ∧
      restored.individual = j) ↔ root.HasFiniteConstants) ∧
    ∀ value, root.nonFinite? = some value →
      ofRecord j.primitives j.dataset j.toRecord = .error (.expression (.notFinite value)) := by
  intro j
  have hsound : j.Sound := hi.sound.of_setRoot hset
  obtain ⟨-, hscoring⟩ := setRoot_eq_ok_iff.1 hset
  have hroot : j.root = some root := by
    show scoring.individual.root = some root
    rw [hscoring, root_rescore]
  have hprimitives : j.primitives = i.primitives := by
    show scoring.individual.primitives = i.primitives
    rw [hscoring, primitives_rescore]
  have hown : root.IsRegistered j.primitives.operators := by
    rw [hprimitives]
    exact hregistered
  refine ⟨hroot, ⟨?_, ?_⟩, fun value => ofRecord_toRecord_of_nonFinite? hroot hown⟩
  · rintro ⟨restored, hrestore, -⟩
    rw [← Expr.nonFinite?_eq_none_iff]
    cases hvalue : root.nonFinite? with
    | none => rfl
    | some value =>
      rw [ofRecord_toRecord_of_nonFinite? hroot hown hvalue] at hrestore
      cases hrestore
  · intro hfinite
    refine ofRecord_toRecord hsound ⟨rfl, fun found hfound => ?_⟩
    rw [hroot] at hfound
    cases hfound
    exact Expr.isOver_iff.2 ⟨hown, hfinite⟩

/-- The parabola is given its own expression again, and restored. -/
theorem setRoot_restores_iff_parabola :
    Reachable parabola ∧ squared.IsRegistered parabola.primitives.operators ∧
      ∃ scoring, parabola.setRoot squared = .ok scoring ∧
        ∃ restored, ofRecord scoring.individual.primitives scoring.individual.dataset
          scoring.individual.toRecord = .ok restored ∧
          restored.individual = scoring.individual := by
  have hregistered : squared.IsRegistered parabola.primitives.operators :=
    Expr.isRegistered_unary.2 ⟨List.mem_singleton.2 rfl, Expr.isRegistered_var⟩
  have hfinite : squared.HasFiniteConstants := by
    intro value hs
    simp [squared, Expr.symbols] at hs
  have hset : parabola.setRoot squared =
      .ok ({ parabola with root := some squared } : Individual).rescore :=
    setRoot_eq_ok_iff.2 ⟨reachable_parabola.sound.admits squared root_parabola, rfl⟩
  exact ⟨reachable_parabola, hregistered, _, hset,
    (setRoot_restores_iff reachable_parabola hregistered hset).2.1.2 hfinite⟩

/-- The smaller one of the variable and infinity is accepted, and its predictions and its
fitness are finite, but its record is refused for the infinity. -/
theorem setRoot_capped :
    Reachable blank ∧ capped.IsRegistered blank.primitives.operators ∧
      ∃ scoring, blank.setRoot capped = .ok scoring ∧ scoring.individual.isValid = true ∧
        scoring.individual.root = some capped ∧
        ofRecord blank.primitives blank.dataset scoring.individual.toRecord =
          .error (.expression (.notFinite (1.0 / 0.0))) := by
  have hset : blank.setRoot capped = .ok ({ blank with root := some capped } : Individual).rescore :=
    setRoot_eq_ok_iff.2 ⟨admits_capped, rfl⟩
  have hroot : ({ blank with root := some capped } : Individual).rescore.individual.root =
      some capped := root_rescore _
  refine ⟨reachable_blank, isRegistered_capped, _, hset, by decide +kernel, hroot, ?_⟩
  exact ofRecord_toRecord_of_nonFinite? hroot isRegistered_capped (by decide +kernel)

end Individual

end SymbolicRegression
