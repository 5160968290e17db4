/-
# Exchanges between engines

Two individuals that exchange subtrees need not have the same operators.  An exchange
looks at depths and at fitnesses, not at names: a subtree takes its operators along, and
they work as well as they did before.  What is at stake is the record.  It keeps nothing
but names, so an individual with an operator of another engine is not restored from its
record over its own operators.

* `Individual.IsNative` : all operators of an individual are those of its own set;
* `Individual.LeadsBack` : what the record of an individual leads to, where it leads anywhere;
* `Individual.IsNative.leadsBack` : the record of a native individual leads back to it;
* `Individual.isNative_of_ofRecord` : only that of a native individual does;
* `Individual.EditedTo.isNative_iff` : an edit keeps an individual native exactly when it
  brings in only operators of its set.

Main statement:

* `Individual.recombine_native_iff` : **the subtree received decides** whether an offspring
  is native.
-/
import SymbolicRegression.Proofs.Loading
import SymbolicRegression.Proofs.Registration

namespace SymbolicRegression

namespace Individual

/-! ## Native individuals -/

/-- An individual whose operators are all registered in its own set. -/
def IsNative (i : Individual) : Prop :=
  ∀ root, i.root = some root → root.IsRegistered i.primitives.operators

/-- What the names of an individual's operators lead to in its own set, and what its record
leads to: each name to the operator that has it here, so that no operator is unknown, and
what is restored has the same expression. -/
structure LeadsBack (i : Individual) : Prop where
  unary_found : ∀ op, Symbol.unary op ∈ i.symbols →
    i.primitives.operators.findUnary? op.name = some op
  binary_found : ∀ op, Symbol.binary op ∈ i.symbols →
    i.primitives.operators.findBinary? op.name = some op
  known : ∀ name arity, ofRecord i.primitives i.dataset i.toRecord ≠
    .error (.expression (.unknownOperator name arity))
  root_eq : ∀ restored, ofRecord i.primitives i.dataset i.toRecord = .ok restored →
    restored.individual.root = i.root

variable {i j : Individual} {path : Path} {old new root : Expr}

/-- The symbols of an individual are those of its expression. -/
theorem mem_symbols_iff {symbol : Symbol} :
    symbol ∈ i.symbols ↔ ∃ root, i.root = some root ∧ symbol ∈ root.symbols := by
  unfold symbols
  cases i.root with
  | none => simp
  | some root => simp

/-- Told by symbols, a native individual is one whose symbols are all registered. -/
theorem isNative_iff : i.IsNative ↔ ∀ symbol ∈ i.symbols, i.primitives.operators.Registers symbol := by
  unfold IsNative Expr.IsRegistered
  constructor
  · intro h symbol hs
    obtain ⟨root, hroot, hs⟩ := mem_symbols_iff.1 hs
    exact h root hroot symbol hs
  · intro h root hroot symbol hs
    exact h symbol (mem_symbols_iff.2 ⟨root, hroot, hs⟩)

/-- The record of a native individual leads to its expression, unless a constant is not
finite. -/
theorem IsNative.recordedRoot_eq (h : i.IsNative) :
    recordedRoot i.primitives.operators i.toRecord.root =
      match i.root.bind Expr.nonFinite? with
      | some value => .error (.expression (.notFinite value))
      | none => .ok i.root := by
  unfold toRecord
  cases hroot : i.root with
  | none => rfl
  | some root =>
    simp only [Option.map_some, recordedRoot, Option.bind_some,
      Expr.resolve_toRecord_of_isRegistered (h root hroot)]
    cases root.nonFinite? with
    | some value => rfl
    | none => rfl

/-- An expression is only to blame for a record that is refused where its names or its
constants are; the settings and the limits have errors of their own. -/
theorem recordedRoot_eq_of_ofRecord {primitives : PrimitiveSet} {dataset : Dataset}
    {record : Record} {cause : ResolveError}
    (h : ofRecord primitives dataset record = .error (.expression cause)) :
    recordedRoot primitives.operators record.root = .error (.expression cause) := by
  unfold ofRecord at h
  split at h
  · cases h
  split at h
  · rename_i heq
    cases h
    exact heq
  split at h
  · cases h
  rename_i root _ _ _ _
  cases root with
  | none => cases h
  | some e =>
    rw [withRecorded] at h
    split at h
    · cases h
    · cases h

/-- **The record of a native individual leads back to it**, wherever it leads. -/
theorem IsNative.leadsBack (h : i.IsNative) : i.LeadsBack where
  unary_found := by
    intro op hs
    exact OperatorSet.findUnary?_eq_some_iff.2 ⟨isNative_iff.1 h _ hs, rfl⟩
  binary_found := by
    intro op hs
    exact OperatorSet.findBinary?_eq_some_iff.2 ⟨isNative_iff.1 h _ hs, rfl⟩
  known := by
    intro name arity herror
    have hrecorded := recordedRoot_eq_of_ofRecord herror
    rw [h.recordedRoot_eq] at hrecorded
    split at hrecorded
    · cases hrecorded
    · cases hrecorded
  root_eq := by
    intro restored hrestore
    obtain ⟨-, root, hrecorded, -, hrestored⟩ := passed_of_ofRecord hrestore
    rw [h.recordedRoot_eq] at hrecorded
    rw [hrestored, root_rescore]
    split at hrecorded
    · cases hrecorded
    · cases hrecorded
      rfl

/-- An individual whose record leads back to it is native. -/
theorem isNative_of_ofRecord {restored : Restored}
    (hrestore : ofRecord i.primitives i.dataset i.toRecord = .ok restored)
    (hroot : restored.individual.root = i.root) : i.IsNative := by
  obtain ⟨hover, -⟩ := isOver_ofRecord hrestore
  intro root h
  exact (Expr.isOver_iff.1 (hover.root_isOver root (hroot.trans h))).1

/-! ## Edits -/

/-- A native individual stays native exactly when an edit brings in only operators of its
set. -/
theorem EditedTo.isNative_iff (hi : i.IsNative) (h : i.EditedTo path old new j) :
    j.IsNative ↔ new.IsRegistered i.primitives.operators := by
  obtain ⟨root, root', hroot, hroot', hsplice⟩ := h.exists_splice
  unfold IsNative
  rw [h.frame.2.1]
  constructor
  · intro hj symbol hs
    exact hj root' hroot' symbol (hsplice.symm.mem_symbols_of_mem_old hs)
  · intro hnew found hfound symbol hs
    rw [hroot', Option.some.injEq] at hfound
    subst hfound
    rcases hsplice.mem_symbols_or hs with hs | hs
    · exact hi root hroot symbol hs
    · exact hnew symbol hs

/-- What stood at the position of an edit, and what stands there now. -/
theorem EditedTo.get?_eq (h : i.EditedTo path old new j) :
    i.get? path = some old ∧ j.get? path = some new := by
  obtain ⟨root, root', hroot, hroot', hsplice⟩ := h.exists_splice
  rw [Individual.get?_eq hroot, Individual.get?_eq hroot']
  exact ⟨Expr.get?_of_splice hsplice, Expr.get?_of_splice hsplice.symm⟩

/-- An edit brings in no symbols but those of the new expression. -/
theorem EditedTo.mem_symbols_or (h : i.EditedTo path old new j) {symbol : Symbol}
    (hs : symbol ∈ j.symbols) : symbol ∈ i.symbols ∨ symbol ∈ new.symbols := by
  obtain ⟨root, root', hroot, hroot', hsplice⟩ := h.exists_splice
  obtain ⟨found, hfound, hs⟩ := mem_symbols_iff.1 hs
  rw [hroot', Option.some.injEq] at hfound
  subst hfound
  exact (hsplice.mem_symbols_or hs).imp_left fun hs => mem_symbols_iff.2 ⟨root, hroot, hs⟩

/-- What an edit displaces was part of the individual. -/
theorem EditedTo.mem_symbols_of_mem_old (h : i.EditedTo path old new j) {symbol : Symbol}
    (hs : symbol ∈ old.symbols) : symbol ∈ i.symbols := by
  obtain ⟨root, _, hroot, -, hsplice⟩ := h.exists_splice
  exact mem_symbols_iff.2 ⟨root, hroot, hsplice.mem_symbols_of_mem_old hs⟩

end Individual

/-! ## Exchanges -/

namespace Recombined

variable {a b : Individual} {o : Offspring}

/-- **The subtree received decides.**  Native individuals come out of a recombination as they
went in, or each with a subtree of the other, and then each is native exactly when the
operators of that subtree are registered in its own set. -/
theorem native_iff (ha : a.IsNative) (hb : b.IsNative) (h : Recombined a b o) :
    (o.first = a ∧ o.second = b) ∨
      ∃ path₁ path₂ e₁ e₂, a.get? path₁ = some e₁ ∧ b.get? path₂ = some e₂ ∧
        o.first.get? path₁ = some e₂ ∧ o.second.get? path₂ = some e₁ ∧
        (o.first.IsNative ↔ e₂.IsRegistered a.primitives.operators) ∧
        (o.second.IsNative ↔ e₁.IsRegistered b.primitives.operators) := by
  cases h with
  | kept log => exact .inl ⟨rfl, rfl⟩
  | @exchanged _ path₁ path₂ e₁ e₂ hfirst hsecond _ _ _ =>
    obtain ⟨hget₁, hget₁'⟩ := hfirst.get?_eq
    obtain ⟨hget₂, hget₂'⟩ := hsecond.get?_eq
    exact .inr ⟨path₁, path₂, e₁, e₂, hget₁, hget₂, hget₁', hget₂', hfirst.isNative_iff ha,
      hsecond.isNative_iff hb⟩

/-- What stands in the first offspring is registered there, or stood in the other parent. -/
theorem registers_or (ha : a.IsNative) (h : Recombined a b o) {symbol : Symbol}
    (hs : symbol ∈ o.first.symbols) :
    o.first.primitives.operators.Registers symbol ∨ symbol ∈ b.symbols := by
  rw [h.frame.1.2.1]
  cases h with
  | kept log => exact .inl (Individual.isNative_iff.1 ha symbol hs)
  | exchanged hfirst hsecond _ _ _ =>
    rcases hfirst.mem_symbols_or hs with hs | hs
    · exact .inl (Individual.isNative_iff.1 ha symbol hs)
    · exact .inr (hsecond.mem_symbols_of_mem_old hs)

/-- The first offspring is native where all of the other parent is registered. -/
theorem isNative_first (ha : a.IsNative) (h : Recombined a b o)
    (hregisters : ∀ symbol ∈ b.symbols, a.primitives.operators.Registers symbol) :
    o.first.IsNative := by
  rw [Individual.isNative_iff]
  intro symbol hs
  rcases h.registers_or ha hs with hs | hs
  · exact hs
  · rw [h.frame.1.2.1]
    exact hregisters symbol hs

end Recombined

namespace Individual

/-! ## Samples -/

/-- The only variable, over operators that do not have the negative. -/
def straight : Individual := sample {} (.var 0)

/-- Its negative, over other operators. -/
def mirrored : Individual := blank.tryRoot (.unary ⟨"negative", Kernel.negative⟩ (.var 0))

theorem root_straight : straight.root = some (.var 0) :=
  root_sample (admits_tower (n := 0) (by decide))

theorem root_mirrored :
    mirrored.root = some (.unary ⟨"negative", Kernel.negative⟩ (.var 0)) := by
  have h : mirrored = (Individual.mk (some (.unary ⟨"negative", Kernel.negative⟩ (.var 0)))
      invalidFitness {} guarded twoSquares).rescore.individual := rfl
  rw [h, root_rescore]

theorem isNative_straight : straight.IsNative := by
  intro root hroot
  rw [root_straight] at hroot
  cases hroot
  exact Expr.isRegistered_var

theorem isNative_mirrored : mirrored.IsNative := by
  have hprimitives : mirrored.primitives = guarded := rfl
  intro root hroot
  rw [root_mirrored] at hroot
  cases hroot
  rw [hprimitives]
  exact Expr.isRegistered_unary.2 ⟨List.mem_singleton.2 rfl, Expr.isRegistered_var⟩

/-! ## Main statement -/

/-- **The subtree received decides whether an offspring is native.**  Let all operators of two
individuals be those of their own sets, which may be different ones.  Whatever the words,
both come out as they went in, or each with a subtree of the other; then an offspring is
native exactly when the operators of that subtree are registered in its set, and surely
where all operators of the other parent are.  Each operator of an offspring is registered in
its own set or is one of the other parent; and the record of a native offspring leads back
to it. -/
theorem recombine_native_iff {a b : Individual} (ha : a.IsNative) (hb : b.IsNative) {σ : Type}
    [WordSource σ] (s : σ) :
    let o := ((a.recombine b).run s).1
    ((o.first = a ∧ o.second = b) ∨
      ∃ path₁ path₂ e₁ e₂, a.get? path₁ = some e₁ ∧ b.get? path₂ = some e₂ ∧
        o.first.get? path₁ = some e₂ ∧ o.second.get? path₂ = some e₁ ∧
        (o.first.IsNative ↔ e₂.IsRegistered a.primitives.operators) ∧
        (o.second.IsNative ↔ e₁.IsRegistered b.primitives.operators)) ∧
    (∀ symbol, (symbol ∈ o.first.symbols →
        o.first.primitives.operators.Registers symbol ∨ symbol ∈ b.symbols) ∧
      (symbol ∈ o.second.symbols →
        o.second.primitives.operators.Registers symbol ∨ symbol ∈ a.symbols)) ∧
    ((∀ symbol ∈ b.symbols, a.primitives.operators.Registers symbol) → o.first.IsNative) ∧
    ((∀ symbol ∈ a.symbols, b.primitives.operators.Registers symbol) → o.second.IsNative) ∧
    (o.first.IsNative → o.first.LeadsBack) ∧ (o.second.IsNative → o.second.LeadsBack) := by
  intro o
  have h : Recombined a b o := recombined_run a b s
  clear_value o
  refine ⟨h.native_iff ha hb, ?_, h.isNative_first ha, h.symm.isNative_first hb,
    IsNative.leadsBack, IsNative.leadsBack⟩
  intro symbol
  exact ⟨h.registers_or ha, h.symm.registers_or hb⟩

/-- The variable has no operators, so its partner stays native. -/
theorem recombine_native_iff_mirrored :
    mirrored.IsNative ∧ straight.IsNative ∧
      ((mirrored.recombine straight).run
        (⟨[0, 0], Xoshiro256.ofSeed 0, 0⟩ : ScriptedWords)).1.first.IsNative := by
  refine ⟨isNative_mirrored, isNative_straight, ?_⟩
  refine (recombine_native_iff isNative_mirrored isNative_straight _).2.2.1 ?_
  intro symbol hs
  obtain ⟨root, hroot, hs⟩ := mem_symbols_iff.1 hs
  rw [root_straight] at hroot
  cases hroot
  rw [List.mem_singleton.1 hs]
  trivial

/-- The variable receives the negative, which its own set does not have, and its record is
refused. -/
theorem recombine_straight_mirrored :
    (Reachable straight ∧ straight.IsNative) ∧ (Reachable mirrored ∧ mirrored.IsNative) ∧
      let o := ((straight.recombine mirrored).run
        (⟨[0, 0], Xoshiro256.ofSeed 0, 0⟩ : ScriptedWords)).1
      ¬ o.first.IsNative ∧ ofRecord o.first.primitives o.first.dataset o.first.toRecord =
        .error (.expression (.unknownOperator "negative" 1)) := by
  refine ⟨⟨reachable_sample valid_default _, isNative_straight⟩,
    ⟨reachable_blank.step (.setRoot _), isNative_mirrored⟩, ?_⟩
  intro o
  have hrefused : (match ofRecord o.first.primitives o.first.dataset o.first.toRecord with
      | .error cause => some cause
      | .ok _ => none) = some (.expression (.unknownOperator "negative" 1)) := by
    decide +kernel
  have herror : ofRecord o.first.primitives o.first.dataset o.first.toRecord =
      .error (.expression (.unknownOperator "negative" 1)) := by
    split at hrefused
    · rename_i heq
      rw [heq, Option.some.inj hrefused]
    · cases hrefused
  exact ⟨fun hnative => hnative.leadsBack.known _ _ herror, herror⟩

end Individual

end SymbolicRegression
