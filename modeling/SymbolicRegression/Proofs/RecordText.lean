/-
# The text of a record

What a text says, told from the side of the reader.  Of a record that was written, the
reader finds the version, the limits, and the shape of the expression with its names and
indices, all as they were.  Only a double may have become another one, and then it is
what the reader makes of the digits that stand for it.

* `Json.IsReadAs` : what the digits of a double are read as;
* `ExprRecord.IsReadAs`, `Settings.IsReadAs`, `Record.IsReadAs` : the same shape, with
  every double read from its digits;
* `Record.isReadAs_of_reread?` : what is read from a record is that record.

Main statement:

* `Individual.save_unambiguous` : **the text of an individual says what its record is.**
-/
import SymbolicRegression.Proofs.Reloading

namespace SymbolicRegression

/-! ## Doubles -/

/-- The digits that are written for `x` are read as `y`. -/
def Json.IsReadAs (x y : Float) : Prop :=
  (Json.ofText? (Json.encodeFloat x).compact).bind Json.float? = some y

/-- The digits of a double alone are read as they are inside of a record. -/
theorem Json.isReadAs_iff {x y : Float} : Json.IsReadAs x y ↔ Json.reread? x = some y := by
  rw [Json.IsReadAs, Json.ofText?_compact (Json.plain_encodeFloat x), Option.bind_some, Json.reread?]

/-! ## Expressions -/

namespace ExprRecord

/-- The same shape, the same names and the same indices, with every constant read from its
digits. -/
inductive IsReadAs : ExprRecord → ExprRecord → Prop
  | binary (op : String) {left right left' right' : ExprRecord} (hleft : IsReadAs left left')
      (hright : IsReadAs right right') : IsReadAs (.binary op left right) (.binary op left' right')
  | unary (op : String) {operand operand' : ExprRecord} (h : IsReadAs operand operand') :
      IsReadAs (.unary op operand) (.unary op operand')
  | var (index : Nat) : IsReadAs (.var index) (.var index)
  | const {x y : Float} (h : Json.IsReadAs x y) : IsReadAs (.const x) (.const y)

/-- What is read from a recorded expression is that expression. -/
theorem isReadAs_of_reread? {r r' : ExprRecord} (h : r.reread? = some r') : r.IsReadAs r' := by
  induction r generalizing r' with
  | binary op left right ihl ihr =>
    simp only [reread?, Option.bind_eq_bind, Option.bind_eq_some_iff] at h
    obtain ⟨left', hleft, right', hright, ⟨⟩⟩ := h
    exact .binary op (ihl hleft) (ihr hright)
  | unary op operand ih =>
    simp only [reread?, Option.bind_eq_bind, Option.bind_eq_some_iff] at h
    obtain ⟨operand', hoperand, ⟨⟩⟩ := h
    exact .unary op (ih hoperand)
  | var index =>
    rw [reread?] at h
    split at h
    · cases h
      exact .var index
    · cases h
  | const value =>
    simp only [reread?, Option.bind_eq_bind, Option.bind_eq_some_iff] at h
    obtain ⟨value', hvalue, ⟨⟩⟩ := h
    exact .const (Json.isReadAs_iff.2 hvalue)

end ExprRecord

/-! ## Records -/

/-- The same limits, with every probability read from its digits. -/
structure Settings.IsReadAs (s s' : Settings) : Prop where
  maxDepth : s'.maxDepth = s.maxDepth
  attempts : s'.attempts = s.attempts
  branch : Json.IsReadAs s.branchProbability s'.branchProbability
  binary : Json.IsReadAs s.binaryProbability s'.binaryProbability
  leaf : Json.IsReadAs s.variableProbability s'.variableProbability
  subtree : Json.IsReadAs s.subtreeMutationRate s'.subtreeMutationRate

/-- What is read from recorded settings is those settings. -/
theorem Settings.isReadAs_of_reread? {s s' : Settings} (h : s.reread? = some s') :
    s.IsReadAs s' := by
  rw [reread?] at h
  split at h
  · simp only [Option.bind_eq_bind, Option.bind_eq_some_iff] at h
    obtain ⟨branch, hbranch, binary, hbinary, leaf, hleaf, subtree, hsubtree, ⟨⟩⟩ := h
    exact ⟨rfl, rfl, Json.isReadAs_iff.2 hbranch, Json.isReadAs_iff.2 hbinary,
      Json.isReadAs_iff.2 hleaf, Json.isReadAs_iff.2 hsubtree⟩
  · cases h

namespace Record

/-- The same version, and settings, expression and fitness as they are read; the latter two
are there or not, as they were. -/
structure IsReadAs (r r' : Record) : Prop where
  version : r'.version = r.version
  settings : r.settings.IsReadAs r'.settings
  root : Option.Rel ExprRecord.IsReadAs r.root r'.root
  fitness : Option.Rel Json.IsReadAs r.fitness r'.fitness

/-- An expression is read if there was one, and it is that expression. -/
theorem isReadAs_of_rereadRoot? {root root' : Option ExprRecord}
    (h : rereadRoot? root = some root') : Option.Rel ExprRecord.IsReadAs root root' := by
  cases root with
  | none =>
    cases h
    exact .none
  | some root =>
    rw [rereadRoot?] at h
    split at h
    · obtain ⟨read, hread, rfl⟩ := Option.map_eq_some_iff.1 h
      exact .some (ExprRecord.isReadAs_of_reread? hread)
    · cases h

/-- A finite fitness is read if there was one. -/
theorem isReadAs_of_rereadFitness? {fitness fitness' : Option Float}
    (hfinite : ∀ v, fitness = some v → v.isFinite = true)
    (h : rereadFitness? fitness = some fitness') : Option.Rel Json.IsReadAs fitness fitness' := by
  cases fitness with
  | none =>
    cases h
    exact .none
  | some fitness =>
    rw [rereadFitness?, if_pos (hfinite fitness rfl)] at h
    obtain ⟨read, hread, rfl⟩ := Option.map_eq_some_iff.1 h
    exact .some (Json.isReadAs_iff.2 hread)

/-- **What is read from a record is that record**, provided that its fitness was written. -/
theorem isReadAs_of_reread? {r r' : Record} (hfinite : ∀ v, r.fitness = some v → v.isFinite = true)
    (h : r.reread? = some r') : r.IsReadAs r' := by
  rw [reread?] at h
  split at h
  · simp only [Option.bind_eq_bind, Option.bind_eq_some_iff] at h
    obtain ⟨settings, hsettings, root, hroot, fitness, hfitness, ⟨⟩⟩ := h
    exact ⟨rfl, Settings.isReadAs_of_reread? hsettings, isReadAs_of_rereadRoot? hroot,
      isReadAs_of_rereadFitness? hfinite hfitness⟩
  · cases h

end Record

/-! ## Files -/

namespace Individual

variable {i : Individual}

/-- Only a finite fitness is recorded. -/
theorem isFinite_of_fitness_toRecord {v : Float} (h : i.toRecord.fitness = some v) :
    v.isFinite = true := by
  rw [toRecord] at h
  simp only at h
  split at h
  · rename_i hvalid
    cases h
    exact hvalid
  · cases h

/-- **Whatever is read from the text of an individual is its record.** -/
theorem isReadAs_of_ofText? {record : Record}
    (h : (Json.ofText? i.save).bind Record.ofJson? = some record) :
    i.toRecord.IsReadAs record := by
  rw [ofText?_save] at h
  exact Record.isReadAs_of_reread? (fun _ => isFinite_of_fitness_toRecord) h

/-- **The text of an individual says what its record is.**  Where the settings are valid,
the constants finite, and the indices, limits and levels within what is read, the text
leads back to the record: to the same version, limits, shape, names and indices, whatever
the names are, with expression and fitness there or not as they were, and every double as
it is read from its digits.  That is the record that loading starts from, over any
primitives and any dataset, and no individual with another record has this text. -/
theorem save_unambiguous (hvalid : i.settings.Valid) (hlegible : i.Legible)
    (hfinite : ∀ root, i.root = some root → root.HasFiniteConstants) :
    ∃ record, (Json.ofText? i.save).bind Record.ofJson? = some record ∧
      i.toRecord.IsReadAs record ∧
      (∀ (primitives : PrimitiveSet) (dataset : Dataset),
        load primitives dataset (some i.save) = ofRecord primitives dataset record) ∧
      ∀ j : Individual, j.save = i.save → j.toRecord.IsReadAs record := by
  obtain ⟨record, hrecord⟩ : ∃ record, i.toRecord.reread? = some record :=
    ⟨_, hlegible.reread?_of_hasFiniteConstants hvalid hfinite⟩
  have htext := ofText?_save i
  rw [hrecord] at htext
  refine ⟨record, htext, isReadAs_of_ofText? htext, ?_, ?_⟩
  · intro primitives dataset
    rw [load_save, hrecord]
  · intro j hj
    apply isReadAs_of_ofText?
    rw [hj]
    exact htext

/-- An individual with an operator whose name has quotes, a backslash, control characters and
a character that is not ASCII, with one that has an empty name, and with the last index of all. -/
def scribble : Individual where
  root := some (.unary ⟨"\"√\\\"\n\x01", fun x => x⟩
    (.binary ⟨"", fun x _ => x⟩ (.var 18446744073709551615) (.const 0.1)))
  fitness := invalidFitness
  settings := {}
  primitives := unguarded
  dataset := twoSquares

theorem save_unambiguous_scribble :
    scribble.settings.Valid ∧ scribble.Legible ∧
      ∃ record y, (Json.ofText? scribble.save).bind Record.ofJson? = some record ∧
        record.root = some (.unary "\"√\\\"\n\x01"
          (.binary "" (.var 18446744073709551615) (.const y))) ∧
        Json.IsReadAs 0.1 y ∧ record.fitness = none := by
  have hlegible : scribble.Legible := by
    refine ⟨?_, ?_, by decide, by decide⟩
    · rintro root ⟨⟩
      decide
    · rintro root ⟨⟩ index hs
      simp only [Expr.symbols, List.cons_append, List.nil_append, List.mem_cons, reduceCtorEq,
        Symbol.var.injEq, List.not_mem_nil, or_false, false_or] at hs
      rw [hs]
      decide
  have hfinite : ∀ root, scribble.root = some root → root.HasFiniteConstants := by
    rintro root ⟨⟩
    rw [Expr.hasFiniteConstants_unary, Expr.hasFiniteConstants_binary,
      Expr.hasFiniteConstants_const]
    refine ⟨?_, by decide +kernel⟩
    intro value hs
    cases List.mem_singleton.1 hs
  obtain ⟨⟨version, settings, root, fitness⟩, htext, hrecord, -, -⟩ :=
    save_unambiguous valid_default hlegible hfinite
  have hroot : Option.Rel ExprRecord.IsReadAs (some (.unary "\"√\\\"\n\x01"
      (.binary "" (.var 18446744073709551615) (.const 0.1)))) root := hrecord.root
  have hfitness : Option.Rel Json.IsReadAs none fitness := hrecord.fitness
  cases hfitness
  cases hroot with
  | some hroot =>
    cases hroot with
    | unary _ hoperand =>
      cases hoperand with
      | binary _ hleft hright =>
        cases hleft
        cases hright with
        | const hconst => exact ⟨valid_default, hlegible, _, _, htext, rfl, hconst, rfl⟩

end Individual

end SymbolicRegression
