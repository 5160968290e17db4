/-
# Saving and loading

An individual that is saved to a file and loaded again keeps the shape of its expression,
its operators, its variables and its limits.  Its constants and its probabilities are
reread, and so they may change, and the fitness with them.  And the file is not read at
all where the expression has more levels than the reader follows.

* `Individual.reread` : what becomes of an individual that is saved and loaded;
* `Individual.Legible` : whether its file can be read;
* `Individual.Kept` : whether nothing changes;
* `Individual.load_save_of_legible`, `Individual.load_save_of_not_legible` : loading what
  was saved.

Main statements:

* `Individual.load_save_eq_iff` : **an individual comes back as it was exactly when its
  constants and probabilities do;**
* `Individual.load_save_iff_legible` : **what was saved can be loaded exactly when it is
  legible, that is, not too high.**
-/
import SymbolicRegression.Proofs.Registration
import SymbolicRegression.Proofs.RereadDouble

namespace SymbolicRegression

/-! ## Doubles -/

namespace Json

/-- The double that is read where a finite one was written. -/
def reread (x : Float) : Float := (reread? x).getD x

variable {x : Float}

/-- A finite double can be read again. -/
theorem reread?_eq_some (h : x.isFinite = true) : reread? x = some (reread x) := by
  obtain ⟨y, hy, -⟩ := exists_reread? h
  rw [reread, hy, Option.getD_some]

/-- A finite double is read as a finite one. -/
theorem isFinite_reread (h : x.isFinite = true) : (reread x).isFinite = true := by
  obtain ⟨y, hy, hfinite⟩ := exists_reread? h
  rwa [reread, hy, Option.getD_some]

/-- A finite double is kept if it is read as it was written. -/
theorem reread_eq_iff (h : x.isFinite = true) : reread x = x ↔ reread? x = some x := by
  rw [reread?_eq_some h, Option.some.injEq]

end Json

/-! ## Settings -/

namespace Settings

variable {s : Settings}

/-- The settings with their probabilities reread. -/
def reread (s : Settings) : Settings where
  maxDepth := s.maxDepth
  attempts := s.attempts
  branchProbability := Json.reread s.branchProbability
  binaryProbability := Json.reread s.binaryProbability
  variableProbability := Json.reread s.variableProbability
  subtreeMutationRate := Json.reread s.subtreeMutationRate

/-- A probability is finite. -/
theorem isFinite_of_isProbability {p : Float} (h : isProbability p = true) : p.isFinite = true :=
  (value_le_one_of_isProbability h).1

/-- Valid settings can be read again if their limits fit into a word. -/
theorem Valid.reread?_eq (h : s.Valid) :
    s.reread? =
      if s.maxDepth < wordBound ∧ s.attempts < wordBound then some s.reread else none := by
  rw [reread?, Json.reread?_eq_some (isFinite_of_isProbability h.branch),
    Json.reread?_eq_some (isFinite_of_isProbability h.binary),
    Json.reread?_eq_some (isFinite_of_isProbability h.leaf),
    Json.reread?_eq_some (isFinite_of_isProbability h.subtree)]
  rfl

/-- If settings can be read, the limits do fit. -/
theorem lt_of_reread? {s' : Settings} (h : s.reread? = some s') :
    s.maxDepth < wordBound ∧ s.attempts < wordBound := by
  rw [reread?] at h
  split at h
  · assumption
  · cases h

/-- **Valid settings stay valid.** -/
theorem Valid.reread (h : s.Valid) : s.reread.Valid := by
  have hkeep {p : Float} (hp : isProbability p = true) : isProbability (Json.reread p) = true :=
    Json.isProbability_reread? hp (Json.reread?_eq_some (isFinite_of_isProbability hp))
  exact ⟨h.attempts_pos, hkeep h.branch, hkeep h.binary, hkeep h.leaf, hkeep h.subtree⟩

/-- All probabilities of valid settings are finite. -/
theorem Valid.isFinite_of_mem (h : s.Valid) {field : String × Float}
    (hfield : field ∈ s.probabilities) : field.2.isFinite = true := by
  simp only [probabilities, List.mem_cons, List.not_mem_nil, or_false] at hfield
  rcases hfield with rfl | rfl | rfl | rfl
  · exact isFinite_of_isProbability h.branch
  · exact isFinite_of_isProbability h.binary
  · exact isFinite_of_isProbability h.leaf
  · exact isFinite_of_isProbability h.subtree

/-- Settings are kept exactly when their probabilities are. -/
theorem reread_eq_iff :
    s.reread = s ↔ ∀ field ∈ s.probabilities, Json.reread field.2 = field.2 := by
  obtain ⟨maxDepth, attempts, branch, binary, leaf, subtree⟩ := s
  simp only [reread, probabilities, Settings.mk.injEq, true_and, List.forall_mem_cons]
  simp

end Settings

/-! ## Expressions -/

/-- A symbol, reread if it is a constant. -/
def Symbol.reread : Symbol → Symbol
  | .const value => .const (Json.reread value)
  | symbol => symbol

namespace Expr

variable {e : Expr}

/-- The expression with its constants reread. -/
def reread : Expr → Expr
  | .binary op left right => .binary op left.reread right.reread
  | .unary op operand => .unary op operand.reread
  | .var index => .var index
  | .const value => .const (Json.reread value)

/-- The symbols are reread one by one. -/
theorem symbols_reread (e : Expr) : e.reread.symbols = e.symbols.map Symbol.reread := by
  induction e with
  | binary op left right ihl ihr =>
    rw [reread, symbols, ihl, ihr, symbols, List.map_cons, List.map_append]
    rfl
  | unary op operand ih =>
    rw [reread, symbols, ih, symbols, List.map_cons]
    rfl
  | var index => rfl
  | const value => rfl

/-- Rereading keeps the height. -/
theorem height_reread (e : Expr) : e.reread.height = e.height := by
  induction e with
  | binary op left right ihl ihr => rw [reread, height, ihl, ihr, height]
  | unary op operand ih => rw [reread, height, ih, height]
  | var index => rfl
  | const value => rfl

/-- Rereading keeps the variables. -/
theorem var_mem_symbols_reread {index : Nat} :
    Symbol.var index ∈ e.reread.symbols ↔ Symbol.var index ∈ e.symbols := by
  rw [symbols_reread, List.mem_map]
  constructor
  · rintro ⟨symbol, hs, heq⟩
    cases symbol with
    | var _ => rwa [← heq]
    | binary _ | unary _ | const _ => cases heq
  · intro hs
    exact ⟨_, hs, rfl⟩

/-- Rereading keeps to the operators, and to finite constants. -/
theorem IsOver.reread {ops : OperatorSet} (h : e.IsOver ops) : e.reread.IsOver ops := by
  intro symbol hs
  rw [symbols_reread, List.mem_map] at hs
  obtain ⟨symbol, hs, rfl⟩ := hs
  have hcovers := h symbol hs
  cases symbol with
  | binary op => exact hcovers
  | unary op => exact hcovers
  | var index => trivial
  | const value => exact Json.isFinite_reread hcovers

/-- An expression is kept exactly when its constants are. -/
theorem reread_eq_iff :
    e.reread = e ↔ ∀ value, Symbol.const value ∈ e.symbols → Json.reread value = value := by
  induction e with
  | binary op left right ihl ihr =>
    simp only [reread, binary.injEq, true_and, ihl, ihr, symbols, List.mem_cons, List.mem_append,
      reduceCtorEq, false_or]
    constructor
    · rintro ⟨hleft, hright⟩ value (hs | hs)
      · exact hleft value hs
      · exact hright value hs
    · intro h
      exact ⟨fun value hs => h value (.inl hs), fun value hs => h value (.inr hs)⟩
  | unary op operand ih =>
    simp only [reread, unary.injEq, true_and, ih, symbols, List.mem_cons, reduceCtorEq, false_or]
  | var index => simp [reread, symbols]
  | const value => simp [reread, symbols]

/-- The record of an expression with finite constants can be read again if its variables fit
into words. -/
theorem reread?_toRecord (hfinite : e.HasFiniteConstants)
    (hvar : ∀ index, Symbol.var index ∈ e.symbols → index < wordBound) :
    e.toRecord.reread? = some e.reread.toRecord := by
  induction e with
  | binary op left right ihl ihr =>
    obtain ⟨hleft, hright⟩ := hasFiniteConstants_binary.1 hfinite
    simp only [var_mem_symbols_binary] at hvar
    rw [toRecord, ExprRecord.reread?, ihl hleft fun index hs => hvar index (.inl hs),
      ihr hright fun index hs => hvar index (.inr hs)]
    rfl
  | unary op operand ih =>
    simp only [var_mem_symbols_unary] at hvar
    rw [toRecord, ExprRecord.reread?, ih (hasFiniteConstants_unary.1 hfinite) hvar]
    rfl
  | var index =>
    rw [toRecord, ExprRecord.reread?, if_pos (hvar index List.mem_cons_self)]
    rfl
  | const value =>
    rw [toRecord, ExprRecord.reread?, Json.reread?_eq_some (hasFiniteConstants_const.1 hfinite)]
    rfl

/-- If it can be read, the variables do fit. -/
theorem var_lt_of_reread?_toRecord {record : ExprRecord} (h : e.toRecord.reread? = some record)
    {index : Nat} (hs : Symbol.var index ∈ e.symbols) : index < wordBound := by
  induction e generalizing record with
  | binary op left right ihl ihr =>
    simp only [toRecord, ExprRecord.reread?, Option.bind_eq_bind, Option.bind_eq_some_iff] at h
    obtain ⟨left', hleft, right', hright, -⟩ := h
    rcases var_mem_symbols_binary.1 hs with hs | hs
    · exact ihl hleft hs
    · exact ihr hright hs
  | unary op operand ih =>
    simp only [toRecord, ExprRecord.reread?, Option.bind_eq_bind, Option.bind_eq_some_iff] at h
    obtain ⟨operand', hoperand, -⟩ := h
    exact ih hoperand (var_mem_symbols_unary.1 hs)
  | var found =>
    cases List.mem_singleton.1 hs
    rw [toRecord, ExprRecord.reread?] at h
    split at h
    · assumption
    · cases h
  | const value => cases List.mem_singleton.1 hs

end Expr

/-! ## Individuals -/

namespace Individual

variable {i : Individual} {primitives : PrimitiveSet}

/-- What becomes of an individual that is saved and loaded: its settings and its expression
are reread, and it is scored anew. -/
def reread (i : Individual) : Individual :=
  (Individual.mk (i.root.map Expr.reread) invalidFitness i.settings.reread i.primitives
    i.dataset).rescore.individual

/-- Whether the file of an individual can be read: its expression has no more levels than the
reader follows, and its indices and limits fit into words. -/
structure Legible (i : Individual) : Prop where
  height_le : ∀ root, i.root = some root → root.height ≤ ExprRecord.depthLimit
  var_lt : ∀ root, i.root = some root →
    ∀ index, Symbol.var index ∈ root.symbols → index < wordBound
  maxDepth_lt : i.settings.maxDepth < wordBound
  attempts_lt : i.settings.attempts < wordBound

/-- The fitness that is written is finite, so it can be read. -/
theorem rereadFitness?_toRecord (i : Individual) :
    Record.rereadFitness? i.toRecord.fitness = some (i.toRecord.fitness.map Json.reread) := by
  rw [toRecord, isValid]
  by_cases hvalid : i.fitness.isFinite = true
  · simp only [if_pos hvalid, Record.rereadFitness?, Json.reread?_eq_some hvalid, Option.map_some]
  · simp only [if_neg hvalid, Record.rereadFitness?, Option.map_none]

/-- A legible expression with finite constants can be read. -/
theorem Legible.rereadRoot?_toRecord (h : i.Legible)
    (hfinite : ∀ root, i.root = some root → root.HasFiniteConstants) :
    Record.rereadRoot? i.toRecord.root = some ((i.root.map Expr.reread).map Expr.toRecord) := by
  rw [toRecord]
  cases hroot : i.root with
  | none => rfl
  | some root =>
    have hread : root.toRecord.reread? = some root.reread.toRecord :=
      Expr.reread?_toRecord (hfinite root hroot) (h.var_lt root hroot)
    have hheight : root.toRecord.height ≤ ExprRecord.depthLimit := by
      rw [ExprRecord.height_toRecord]
      exact h.height_le root hroot
    simp only [Option.map_some, Record.rereadRoot?, if_pos hheight, hread]

/-- The record of a legible individual with finite constants can be read. -/
theorem Legible.reread?_of_hasFiniteConstants (h : i.Legible) (hvalid : i.settings.Valid)
    (hfinite : ∀ root, i.root = some root → root.HasFiniteConstants) :
    i.toRecord.reread? = some ⟨currentVersion, i.settings.reread,
      (i.root.map Expr.reread).map Expr.toRecord, i.toRecord.fitness.map Json.reread⟩ := by
  have hversion : i.toRecord.version < halfWordBound := by
    show currentVersion < halfWordBound
    decide
  have hsettings : i.toRecord.settings.reread? = some i.settings.reread := by
    show i.settings.reread? = some i.settings.reread
    rw [hvalid.reread?_eq, if_pos ⟨h.maxDepth_lt, h.attempts_lt⟩]
  rw [Record.reread?, if_pos hversion, hsettings, h.rereadRoot?_toRecord hfinite,
    rereadFitness?_toRecord]
  rfl

/-- The record of a legible individual over some operators can be read. -/
theorem Legible.reread?_toRecord (h : i.Legible) (hvalid : i.settings.Valid)
    (hover : i.IsOver primitives) :
    i.toRecord.reread? = some ⟨currentVersion, i.settings.reread,
      (i.root.map Expr.reread).map Expr.toRecord, i.toRecord.fitness.map Json.reread⟩ := by
  refine h.reread?_of_hasFiniteConstants hvalid ?_
  intro root hroot
  exact (Expr.isOver_iff.1 (hover.root_isOver root hroot)).2

/-- If the record can be read, the individual is legible. -/
theorem legible_of_reread?_toRecord {record : Record} (h : i.toRecord.reread? = some record) :
    i.Legible := by
  rw [Record.reread?] at h
  split at h
  · simp only [Option.bind_eq_bind, Option.bind_eq_some_iff] at h
    obtain ⟨settings, hsettings, root, hroot, -⟩ := h
    have hlimits : i.settings.maxDepth < wordBound ∧ i.settings.attempts < wordBound :=
      Settings.lt_of_reread? hsettings
    have hread (e : Expr) (he : i.root = some e) :
        e.height ≤ ExprRecord.depthLimit ∧ ∃ read, e.toRecord.reread? = some read := by
      rw [toRecord, he, Option.map_some, Record.rereadRoot?] at hroot
      split at hroot
      · rename_i hheight
        rw [ExprRecord.height_toRecord] at hheight
        obtain ⟨read, hread, -⟩ := Option.map_eq_some_iff.1 hroot
        exact ⟨hheight, read, hread⟩
      · cases hroot
    refine ⟨fun e he => (hread e he).1, fun e he index hs => ?_, hlimits.1, hlimits.2⟩
    obtain ⟨-, read, hread⟩ := hread e he
    exact Expr.var_lt_of_reread?_toRecord hread hs
  · cases h

/-- **Loading what was saved**, where it is legible. -/
theorem load_save_of_legible (hi : i.Sound) (hover : i.IsOver i.primitives) (h : i.Legible) :
    ∃ restored, load i.primitives i.dataset (some i.save) = .ok restored ∧
      restored.individual = i.reread := by
  rw [load_save, h.reread?_toRecord hi.valid hover]
  refine ofRecord_eq_ok _ hi.valid.reread ?_ ?_
  · intro e he
    obtain ⟨root, hroot, rfl⟩ := Option.map_eq_some_iff.1 he
    exact (hover.root_isOver root hroot).reread
  · intro e he
    obtain ⟨root, hroot, rfl⟩ := Option.map_eq_some_iff.1 he
    have hadmits := hi.admits root hroot
    refine ⟨?_, fun index hs => hadmits.var_lt index (Expr.var_mem_symbols_reread.1 hs)⟩
    rw [Expr.depth, Expr.height_reread]
    exact hadmits.depth_le

/-- **Loading what was saved**, where it is not. -/
theorem load_save_of_not_legible (h : ¬ i.Legible) :
    load i.primitives i.dataset (some i.save) = .error .malformed := by
  rw [load_save]
  cases hread : i.toRecord.reread? with
  | none => rfl
  | some record => exact absurd (legible_of_reread?_toRecord hread) h

/-! ## What is kept -/

/-- Whether rereading changes nothing: the probabilities of the settings and the constants of
the expression are read as they were written. -/
structure Kept (i : Individual) : Prop where
  probabilities : ∀ field ∈ i.settings.probabilities, Json.reread? field.2 = some field.2
  constants : ∀ root, i.root = some root → ∀ value, Symbol.const value ∈ root.symbols →
    Json.reread? value = some value

/-- What is loaded has the settings reread. -/
theorem settings_reread (i : Individual) : i.reread.settings = i.settings.reread := by
  rw [reread, settings_rescore]

/-- What is loaded has the expression reread. -/
theorem root_reread (i : Individual) : i.reread.root = i.root.map Expr.reread := by
  rw [reread, root_rescore]

/-- **A sound individual is kept exactly when its probabilities and constants are.** -/
theorem reread_eq_iff (hi : i.Sound) (hover : i.IsOver primitives) : i.reread = i ↔ i.Kept := by
  have hconstant {root : Expr} (hroot : i.root = some root) {value : Float}
      (hs : Symbol.const value ∈ root.symbols) : value.isFinite = true :=
    hover.root_isOver root hroot _ hs
  constructor
  · intro h
    have hsettings : i.settings.reread = i.settings := by rw [← settings_reread, h]
    have hroots : i.root.map Expr.reread = i.root := by rw [← root_reread, h]
    refine ⟨fun field hfield => ?_, fun root hroot value hs => ?_⟩
    · have hkept := Settings.reread_eq_iff.1 hsettings field hfield
      exact (Json.reread_eq_iff (hi.valid.isFinite_of_mem hfield)).1 hkept
    · rw [hroot, Option.map_some, Option.some.injEq] at hroots
      have hkept := Expr.reread_eq_iff.1 hroots value hs
      exact (Json.reread_eq_iff (hconstant hroot hs)).1 hkept
  · intro h
    have hsettings : i.settings.reread = i.settings :=
      Settings.reread_eq_iff.2 fun field hfield =>
        (Json.reread_eq_iff (hi.valid.isFinite_of_mem hfield)).2 (h.probabilities field hfield)
    have hroots : i.root.map Expr.reread = i.root := by
      cases hroot : i.root with
      | none => rfl
      | some root =>
        rw [Option.map_some, Option.some.injEq, Expr.reread_eq_iff]
        intro value hs
        exact (Json.reread_eq_iff (hconstant hroot hs)).2 (h.constants root hroot value hs)
    rw [reread, hsettings, hroots]
    exact (congrArg Scoring.individual (rescore_with_fitness i invalidFitness)).trans hi.rescore_eq

/-! ## Samples -/

/-- An individual over the sample operators with a given expression. -/
def sample (settings : Settings) (root : Expr) : Individual :=
  tryRoot ⟨none, invalidFitness, settings, unguarded, twoSquares⟩ root

/-- A search can arrive at a sample. -/
theorem reachable_sample {settings : Settings} (hvalid : settings.Valid) (root : Expr) :
    Reachable (sample settings root) :=
  reachable_tryRoot hvalid unguarded twoSquares root

/-- A sample has its expression, scored, if it admits it. -/
theorem sample_eq {settings : Settings} {root : Expr}
    (hadmits : (Individual.mk none invalidFitness settings unguarded twoSquares).Admits root) :
    sample settings root = (Individual.mk (some root) invalidFitness settings unguarded
      twoSquares).rescore.individual :=
  tryRoot_eq hadmits

/-- A sample is over its own operators if its expression is. -/
theorem isOver_sample {settings : Settings} {root : Expr}
    (hadmits : (Individual.mk none invalidFitness settings unguarded twoSquares).Admits root)
    (hroot : root.IsOver unguarded.operators) :
    (sample settings root).IsOver (sample settings root).primitives := by
  rw [sample_eq hadmits, primitives_rescore]
  refine ⟨primitives_rescore _, fun found hfound => ?_⟩
  rw [root_rescore] at hfound
  cases hfound
  exact hroot

/-- A sample has its expression if it admits it. -/
theorem root_sample {settings : Settings} {root : Expr}
    (hadmits : (Individual.mk none invalidFitness settings unguarded twoSquares).Admits root) :
    (sample settings root).root = some root := by
  rw [sample_eq hadmits, root_rescore]

/-- The file of a sample can be read if its expression is not too high and its numbers are
words. -/
theorem legible_sample {settings : Settings} {root : Expr}
    (hadmits : (Individual.mk none invalidFitness settings unguarded twoSquares).Admits root)
    (hheight : root.height ≤ ExprRecord.depthLimit)
    (hvar : ∀ index, Symbol.var index ∈ root.symbols → index < wordBound)
    (hdepth : settings.maxDepth < wordBound) (hattempts : settings.attempts < wordBound) :
    (sample settings root).Legible := by
  have honly {found : Expr} (hfound : (sample settings root).root = some found) : found = root := by
    rw [root_sample hadmits, Option.some.injEq] at hfound
    exact hfound.symm
  have hsettings : (sample settings root).settings = settings := by
    rw [sample_eq hadmits, settings_rescore]
  refine ⟨fun found hfound => ?_, fun found hfound => ?_, ?_, ?_⟩
  · rwa [honly hfound]
  · rwa [honly hfound]
  · rwa [hsettings]
  · rwa [hsettings]

/-- The square of the square, and so on, of the only variable. -/
def tower : Nat → Expr
  | 0 => .var 0
  | n + 1 => .unary ⟨"square", fun x => x * x⟩ (tower n)

/-- Every square is one more level. -/
theorem height_tower (n : Nat) : (tower n).height = n + 1 := by
  induction n with
  | zero => rfl
  | succ n ih => rw [tower, Expr.height, ih]

/-- A tower has no operator but the square. -/
theorem isOver_tower (n : Nat) : (tower n).IsOver unguarded.operators := by
  induction n with
  | zero => exact Expr.isOver_var
  | succ n ih => exact Expr.isOver_unary.2 ⟨List.mem_singleton.2 rfl, ih⟩

/-- A tower has the only variable and no other. -/
theorem var_lt_of_mem_tower {n index : Nat} (hs : Symbol.var index ∈ (tower n).symbols) :
    index < twoSquares.variableCount := by
  induction n with
  | zero =>
    cases List.mem_singleton.1 hs
    decide
  | succ n ih => exact ih (Expr.var_mem_symbols_unary.1 hs)

/-- A tower is admitted up to the greatest depth. -/
theorem admits_tower {settings : Settings} {n : Nat} (h : n ≤ settings.maxDepth) :
    (Individual.mk none invalidFitness settings unguarded twoSquares).Admits (tower n) where
  depth_le := by rwa [Expr.depth, height_tower]
  var_lt := fun _ hs => var_lt_of_mem_tower hs

/-- The sample with the square of its variable is the one with a tower of one. -/
theorem parabola_eq : parabola = sample {} (tower 1) := rfl

/-- The parabola is over its own operators. -/
theorem isOver_parabola : parabola.IsOver parabola.primitives := by
  rw [parabola_eq]
  exact isOver_sample (admits_tower (by decide)) (isOver_tower 1)

/-- The file of the parabola can be read. -/
theorem legible_parabola : parabola.Legible := by
  rw [parabola_eq]
  refine legible_sample (admits_tower (by decide)) (by decide) ?_ (by decide) (by decide)
  intro index hs
  exact (var_lt_of_mem_tower hs).trans (by decide)

/-- Nothing of the parabola changes when it is read. -/
theorem kept_parabola : parabola.Kept := by
  refine ⟨?_, fun root hroot value hs => ?_⟩
  · decide +kernel
  · rw [root_parabola] at hroot
    cases hroot
    simp [squared, Expr.symbols] at hs

/-- The sample with a constant. -/
def drifting : Individual := sample {} (.const 0.21659939713061338)

theorem admits_drifting : (Individual.mk none invalidFitness {} unguarded twoSquares).Admits
    (.const 0.21659939713061338) where
  depth_le := by decide
  var_lt := by
    intro index hs
    cases List.mem_singleton.1 hs

theorem isOver_drifting : (Expr.const 0.21659939713061338).IsOver unguarded.operators :=
  Expr.isOver_const.2 (by decide +kernel)

/-- The sample with a tower of more levels than the reader follows. -/
def towering : Individual := sample { maxDepth := 126 } (tower 126)

theorem valid_towering : Settings.Valid { maxDepth := 126 } :=
  Settings.fault?_eq_none_iff.1 (by decide)

theorem admits_towering :
    (Individual.mk none invalidFitness { maxDepth := 126 } unguarded twoSquares).Admits
      (tower 126) :=
  admits_tower (Nat.le_refl _)

/-! ## Main statements -/

/-- **What comes back is what was saved, reread.**  An individual of a search over its own
operators that can be loaded again comes back with its constants and probabilities
reread, and so it comes back as it was exactly when these are read as they were written. -/
theorem load_save_eq_iff (hi : Reachable i) (hover : i.IsOver i.primitives) {restored : Restored}
    (hload : load i.primitives i.dataset (some i.save) = .ok restored) :
    restored.individual = i.reread ∧ (restored.individual = i ↔ i.Kept) := by
  have hlegible : i.Legible := by
    by_contra h
    rw [load_save_of_not_legible h] at hload
    cases hload
  obtain ⟨found, hfound, hreread⟩ := load_save_of_legible hi.sound hover hlegible
  rw [hload] at hfound
  cases hfound
  refine ⟨hreread, ?_⟩
  rw [hreread]
  exact reread_eq_iff hi.sound hover

/-- The parabola comes back as it was. -/
theorem load_save_eq_iff_parabola :
    Reachable parabola ∧ parabola.IsOver parabola.primitives ∧
      ∃ restored, load parabola.primitives parabola.dataset (some parabola.save) = .ok restored ∧
        restored.individual = parabola := by
  obtain ⟨restored, hload, -⟩ :=
    load_save_of_legible reachable_parabola.sound isOver_parabola legible_parabola
  refine ⟨reachable_parabola, isOver_parabola, restored, hload, ?_⟩
  exact (load_save_eq_iff reachable_parabola isOver_parabola hload).2.2 kept_parabola

/-- A single constant that does not: its last digit changes. -/
theorem load_save_drifting :
    Reachable drifting ∧ drifting.IsOver drifting.primitives ∧
      drifting.root = some (.const 0.21659939713061338) ∧
      ∃ restored, load drifting.primitives drifting.dataset (some drifting.save) = .ok restored ∧
        restored.individual.root = some (.const 0.21659939713061335) ∧
        restored.individual.root ≠ drifting.root := by
  have hover := isOver_sample admits_drifting isOver_drifting
  have hroot : drifting.root = some (.const 0.21659939713061338) := root_sample admits_drifting
  have hlegible : drifting.Legible :=
    legible_sample admits_drifting (by decide) (fun index hs => by cases List.mem_singleton.1 hs)
      (by decide) (by decide)
  have hreachable : Reachable drifting := reachable_sample valid_default _
  obtain ⟨restored, hload, hrestored⟩ := load_save_of_legible hreachable.sound hover hlegible
  have hread : Json.reread 0.21659939713061338 = 0.21659939713061335 := by decide +kernel
  have hchanged : restored.individual.root = some (.const 0.21659939713061335) := by
    rw [hrestored, root_reread, hroot, Option.map_some, Expr.reread, hread]
  refine ⟨hreachable, hover, hroot, restored, hload, hchanged, ?_⟩
  rw [hchanged, hroot, Ne, Option.some.injEq, Expr.const.injEq]
  decide +kernel

/-- **What was saved can be loaded exactly when it is legible.**  The constants and the
probabilities of an individual of a search over its own operators never stand in the way:
its file can be read exactly when its expression is not too high and its indices and
limits fit into words, and otherwise it is refused as malformed. -/
theorem load_save_iff_legible (hi : Reachable i) (hover : i.IsOver i.primitives) :
    ((∃ restored, load i.primitives i.dataset (some i.save) = .ok restored) ↔ i.Legible) ∧
      (¬ i.Legible → load i.primitives i.dataset (some i.save) = .error .malformed) := by
  refine ⟨⟨?_, ?_⟩, load_save_of_not_legible⟩
  · rintro ⟨restored, hload⟩
    by_contra h
    rw [load_save_of_not_legible h] at hload
    cases hload
  · intro h
    obtain ⟨restored, hload, -⟩ := load_save_of_legible hi.sound hover h
    exact ⟨restored, hload⟩

/-- The parabola can be loaded. -/
theorem load_save_iff_legible_parabola :
    Reachable parabola ∧ parabola.IsOver parabola.primitives ∧
      ∃ restored, load parabola.primitives parabola.dataset (some parabola.save) = .ok restored :=
  ⟨reachable_parabola, isOver_parabola,
    (load_save_iff_legible reachable_parabola isOver_parabola).1.2 legible_parabola⟩

/-- A tower of one level too many cannot, though its settings allow it. -/
theorem load_save_towering :
    Reachable towering ∧ towering.IsOver towering.primitives ∧
      towering.root = some (tower 126) ∧ (tower 126).depth = 126 ∧
      load towering.primitives towering.dataset (some towering.save) = .error .malformed := by
  have hdepth : (tower 126).depth = 126 := by rw [Expr.depth, height_tower]
  have hroot : towering.root = some (tower 126) := root_sample admits_towering
  refine ⟨reachable_sample valid_towering _, isOver_sample admits_towering (isOver_tower 126),
    hroot, hdepth, load_save_of_not_legible fun h => ?_⟩
  have hheight := h.height_le _ hroot
  rw [height_tower] at hheight
  exact absurd hheight (by decide)

end Individual

end SymbolicRegression
