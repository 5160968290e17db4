/-
# Names and operators

A record keeps the names of operators.  Names are unique within a set of operators,
so each name leads back to the operator that it came from, and an expression can
be told from its record whenever its operators are those of the set and its
constants are finite.

* `OperatorSet.findUnary?_eq_some_iff`, `OperatorSet.findBinary?_eq_some_iff` : what a
  name leads to;
* `Expr.IsOver` : the expressions over a set of operators;
* `ExprRecord.resolve_eq_ok_iff` : what a record leads to.
-/
import SymbolicRegression.Proofs.Symbol
import SymbolicRegression.Record.Expression

namespace SymbolicRegression

/-! ## Names -/

/-- Where no two members of a list have the same key, looking for a key finds
the member that has it. -/
theorem find?_key_eq_some_iff {α : Type} {key : α → String} {xs : List α}
    (hnodup : (xs.map key).Nodup) {name : String} {x : α} :
    xs.find? (fun y => key y == name) = some x ↔ x ∈ xs ∧ key x = name := by
  induction xs with
  | nil => simp
  | cons y ys ih =>
    rw [List.map_cons, List.nodup_cons] at hnodup
    obtain ⟨hfresh, hnodup⟩ := hnodup
    rw [List.find?_cons]
    by_cases hy : key y = name
    · rw [hy, beq_self_eq_true]
      constructor
      · intro h
        cases h
        exact ⟨List.mem_cons_self, hy⟩
      · rintro ⟨hx, hkey⟩
        rcases List.mem_cons.1 hx with rfl | hx
        · rfl
        · -- a later member with this key would repeat the one of `y`
          have hrepeat : key y ∈ ys.map key := List.mem_map.2 ⟨x, hx, hkey.trans hy.symm⟩
          exact absurd hrepeat hfresh
    · rw [beq_false_of_ne hy]
      simp only [ih hnodup, List.mem_cons]
      constructor
      · rintro ⟨hx, hkey⟩
        exact ⟨.inr hx, hkey⟩
      · rintro ⟨rfl | hx, hkey⟩
        · exact absurd hkey hy
        · exact ⟨hx, hkey⟩

namespace OperatorSet

variable {ops : OperatorSet} {name : String}

/-- **A name leads to the unary operator that has it**, and to no other. -/
theorem findUnary?_eq_some_iff {op : UnaryOperator} :
    ops.findUnary? name = some op ↔ op ∈ ops.unary ∧ op.name = name :=
  find?_key_eq_some_iff (List.nodup_append.1 ops.names_nodup).1

/-- **A name leads to the binary operator that has it**, and to no other. -/
theorem findBinary?_eq_some_iff {op : BinaryOperator} :
    ops.findBinary? name = some op ↔ op ∈ ops.binary ∧ op.name = name :=
  find?_key_eq_some_iff (List.nodup_append.1 ops.names_nodup).2.1

/-- The symbols that a record over a set of operators can keep: the operators of the
set, all variables, and the finite constants. -/
def Covers (ops : OperatorSet) : Symbol → Prop
  | .binary op => op ∈ ops.binary
  | .unary op => op ∈ ops.unary
  | .var _ => True
  | .const value => value.isFinite = true

end OperatorSet

/-! ## Expressions over a set of operators -/

/-- An expression over a set of operators, with finite constants. -/
def Expr.IsOver (ops : OperatorSet) (e : Expr) : Prop := ∀ symbol ∈ e.symbols, ops.Covers symbol

namespace Expr

variable {ops : OperatorSet}

/-- An application of a binary operator is over a set if the operator and both operands are.
-/
@[simp] theorem isOver_binary {op : BinaryOperator} {left right : Expr} :
    (Expr.binary op left right).IsOver ops ↔
      op ∈ ops.binary ∧ left.IsOver ops ∧ right.IsOver ops := by
  simp only [IsOver, symbols, List.forall_mem_cons, List.forall_mem_append]
  rfl

/-- An application of a unary operator is over a set if the operator and its operand are. -/
@[simp] theorem isOver_unary {op : UnaryOperator} {operand : Expr} :
    (Expr.unary op operand).IsOver ops ↔ op ∈ ops.unary ∧ operand.IsOver ops := by
  simp only [IsOver, symbols, List.forall_mem_cons]
  rfl

@[simp] theorem isOver_var {index : Nat} : (Expr.var index).IsOver ops := by
  intro symbol hs
  rw [List.mem_singleton.1 hs]
  trivial

/-- A constant is over any set if it is finite. -/
@[simp] theorem isOver_const {value : Float} :
    (Expr.const value).IsOver ops ↔ value.isFinite = true := by
  simp only [IsOver, symbols, List.forall_mem_singleton]
  rfl

end Expr

/-! ## Records of expressions -/

/-- The record of an expression over a set of operators leads back to it. -/
theorem Expr.resolve_toRecord {ops : OperatorSet} {e : Expr} (h : e.IsOver ops) :
    e.toRecord.resolve ops = .ok e := by
  induction e with
  | binary op left right ihl ihr =>
    obtain ⟨hop, hleft, hright⟩ := isOver_binary.1 h
    have hfind : ops.findBinary? op.name = some op :=
      OperatorSet.findBinary?_eq_some_iff.2 ⟨hop, rfl⟩
    rw [toRecord, ExprRecord.resolve, hfind]
    simp only [ihl hleft, ihr hright]
  | unary op operand ih =>
    obtain ⟨hop, hoperand⟩ := isOver_unary.1 h
    have hfind : ops.findUnary? op.name = some op :=
      OperatorSet.findUnary?_eq_some_iff.2 ⟨hop, rfl⟩
    rw [toRecord, ExprRecord.resolve, hfind]
    simp only [ih hoperand]
  | var index => rfl
  | const value => rw [toRecord, ExprRecord.resolve, if_pos (isOver_const.1 h)]

namespace ExprRecord

variable {ops : OperatorSet} {record : ExprRecord} {e : Expr}

/-- What a record leads to is an expression over the set, and the record is its record. -/
theorem isOver_of_resolve (h : record.resolve ops = .ok e) : e.IsOver ops ∧ e.toRecord = record := by
  induction record generalizing e with
  | binary name left right ihl ihr =>
    rw [resolve] at h
    split at h
    · cases h
    rename_i op hop
    split at h
    · cases h
    rename_i l hl
    split at h
    · cases h
    rename_i r hr
    cases h
    obtain ⟨hmem, rfl⟩ := OperatorSet.findBinary?_eq_some_iff.1 hop
    obtain ⟨hlover, rfl⟩ := ihl hl
    obtain ⟨hrover, rfl⟩ := ihr hr
    exact ⟨Expr.isOver_binary.2 ⟨hmem, hlover, hrover⟩, rfl⟩
  | unary name operand ih =>
    rw [resolve] at h
    split at h
    · cases h
    rename_i op hop
    split at h
    · cases h
    rename_i x hx
    cases h
    obtain ⟨hmem, rfl⟩ := OperatorSet.findUnary?_eq_some_iff.1 hop
    obtain ⟨hover, rfl⟩ := ih hx
    exact ⟨Expr.isOver_unary.2 ⟨hmem, hover⟩, rfl⟩
  | var index =>
    cases h
    exact ⟨Expr.isOver_var, rfl⟩
  | const value =>
    rw [resolve] at h
    split at h
    · rename_i hfinite
      cases h
      exact ⟨Expr.isOver_const.2 hfinite, rfl⟩
    · cases h

/-- **What a record leads to.**  A record leads to the one expression over the set
that it is the record of, and to nothing where there is none. -/
theorem resolve_eq_ok_iff : record.resolve ops = .ok e ↔ e.IsOver ops ∧ e.toRecord = record := by
  constructor
  · exact isOver_of_resolve
  · rintro ⟨hover, rfl⟩
    exact Expr.resolve_toRecord hover

end ExprRecord

end SymbolicRegression
