/-
# What random generation gives

Whatever the answers to its questions, a random expression keeps to its number of
levels and is built from what the individual offers, in the kinds that the
probabilities allow; and whatever keeps to that can be the answer.

* `Individual.Offers`, `Individual.Allows` : the symbols to choose from, by what they are
  and by their kind;
* `Individual.Grown` : the expressions that can grow under these choices;
* `Individual.possible_randomExpr_iff` : **a random expression is what can grow**;
* `Individual.wellPosed_randomExpr` : with valid settings every question makes sense.
-/
import SymbolicRegression.Expr.Path
import SymbolicRegression.Individual.Generation
import SymbolicRegression.Proofs.Symbol

namespace SymbolicRegression

/-- A question of a valid probability makes sense. -/
theorem Settings.wellPosed_flip {p : Float} (h : isProbability p = true) :
    (Draw.flip p).WellPosed := by
  rw [isProbability, Bool.and_eq_true, decide_eq_true_eq, decide_eq_true_eq] at h
  exact ⟨h, fun _ _ => trivial⟩

namespace Individual

variable {i : Individual} {levels : Nat} {e : Expr}

/-- Whether a symbol is one that the random search may choose: an operator of the
set, a variable of the dataset, a constant of the palette. -/
def Offers (i : Individual) : Symbol → Prop
  | .binary op => op ∈ i.primitives.operators.binary
  | .unary op => op ∈ i.primitives.operators.unary
  | .var index => index < i.dataset.variableCount
  | .const value => value ∈ i.primitives.constants.values

/-- Whether the probabilities let a symbol of this kind be chosen. -/
def Allows (i : Individual) : Symbol → Prop
  | .binary _ => ChanceAllows i.settings.branchProbability true ∧
      ChanceAllows i.settings.binaryProbability true
  | .unary _ => ChanceAllows i.settings.branchProbability true ∧
      ChanceAllows i.settings.binaryProbability false
  | .var _ => ChanceAllows i.settings.variableProbability true
  | .const _ => ChanceAllows i.settings.variableProbability false

/-- Whether a position with so many levels left below it may hold a leaf. -/
def MayStop (i : Individual) (levels : Nat) : Prop :=
  levels = 0 ∨ ChanceAllows i.settings.branchProbability false

/-! ## What can grow -/

/-- `i.Grown levels e` : the random search can choose `e` for a position with that many
levels below it. -/
inductive Grown (i : Individual) : Nat → Expr → Prop
  | var {levels index : Nat} (hstop : i.MayStop levels) (hallows : i.Allows (.var index))
      (hoffers : i.Offers (.var index)) : Grown i levels (.var index)
  | const {levels : Nat} {value : Float} (hstop : i.MayStop levels)
      (hallows : i.Allows (.const value)) (hoffers : i.Offers (.const value)) :
      Grown i levels (.const value)
  | binary {levels : Nat} {op : BinaryOperator} {left right : Expr}
      (hallows : i.Allows (.binary op)) (hoffers : i.Offers (.binary op))
      (hleft : Grown i levels left) (hright : Grown i levels right) :
      Grown i (levels + 1) (.binary op left right)
  | unary {levels : Nat} {op : UnaryOperator} {operand : Expr}
      (hallows : i.Allows (.unary op)) (hoffers : i.Offers (.unary op))
      (hoperand : Grown i levels operand) : Grown i (levels + 1) (.unary op operand)

namespace Grown

/-- What grows has at most the given number of levels below its root. -/
theorem height_le (h : i.Grown levels e) : e.height ≤ levels + 1 := by
  induction h with
  | var _ _ _ => exact Nat.le_add_left 1 _
  | const _ _ _ => exact Nat.le_add_left 1 _
  | binary _ _ _ _ ihl ihr =>
    rw [Expr.height]
    omega
  | unary _ _ _ ih =>
    rw [Expr.height]
    omega

/-- Every symbol of what grows is offered and allowed. -/
theorem offers_and_allows (h : i.Grown levels e) {symbol : Symbol} (hs : symbol ∈ e.symbols) :
    i.Offers symbol ∧ i.Allows symbol := by
  induction h with
  | var _ hallows hoffers =>
    rw [List.mem_singleton.1 hs]
    exact ⟨hoffers, hallows⟩
  | const _ hallows hoffers =>
    rw [List.mem_singleton.1 hs]
    exact ⟨hoffers, hallows⟩
  | binary hallows hoffers _ _ ihl ihr =>
    rw [Expr.symbols, List.mem_cons, List.mem_append] at hs
    rcases hs with rfl | hs | hs
    · exact ⟨hoffers, hallows⟩
    · exact ihl hs
    · exact ihr hs
  | unary hallows hoffers _ ih =>
    rw [Expr.symbols, List.mem_cons] at hs
    rcases hs with rfl | hs
    · exact ⟨hoffers, hallows⟩
    · exact ih hs

/-- Where no position above the last level may hold a leaf, all leaves stand on the
last level. -/
theorem length_eq_of_isLeaf (h : i.Grown levels e)
    (hbranch : ¬ ChanceAllows i.settings.branchProbability false) {path : Path} {leaf : Expr}
    (hget : e.get? path = some leaf) (hleaf : leaf.isLeaf = true) : path.length = levels := by
  have hstop {levels : Nat} (hstop : i.MayStop levels) : 0 = levels :=
    (hstop.resolve_right hbranch).symm
  induction h generalizing path with
  | var h _ _ =>
    cases path with
    | nil => exact hstop h
    | cons side path => cases side <;> cases hget
  | const h _ _ =>
    cases path with
    | nil => exact hstop h
    | cons side path => cases side <;> cases hget
  | binary _ _ _ _ ihl ihr =>
    cases path with
    | nil =>
      cases hget
      cases hleaf
    | cons side path =>
      cases side with
      | left => exact congrArg Nat.succ (ihl hget)
      | right => exact congrArg Nat.succ (ihr hget)
  | unary _ _ _ ih =>
    cases path with
    | nil =>
      cases hget
      cases hleaf
    | cons side path =>
      cases side with
      | left => exact congrArg Nat.succ (ih hget)
      | right => cases hget

/-- A leaf that grows on the last level grows wherever a leaf may stand. -/
theorem of_mayStop (h : i.Grown 0 e) (hstop : i.MayStop levels) : i.Grown levels e := by
  cases h with
  | var _ hallows hoffers => exact .var hstop hallows hoffers
  | const _ hallows hoffers => exact .const hstop hallows hoffers

/-- **All that fits grows.**  Where a position above the last level may hold a leaf, nothing
but the levels and the symbols is asked of an expression. -/
theorem of_height_le (hstop : ChanceAllows i.settings.branchProbability false)
    (hheight : e.height ≤ levels + 1)
    (hsymbols : ∀ symbol ∈ e.symbols, i.Offers symbol ∧ i.Allows symbol) : i.Grown levels e := by
  induction e generalizing levels with
  | binary op left right ihl ihr =>
    rw [Expr.height] at hheight
    rw [Expr.symbols] at hsymbols
    -- an operand has a level of its own, so there is one below the operator
    have hleft := left.height_pos
    obtain ⟨levels, rfl⟩ : ∃ below, levels = below + 1 := ⟨levels - 1, by omega⟩
    obtain ⟨hoffers, hallows⟩ := hsymbols _ List.mem_cons_self
    refine .binary hallows hoffers (ihl (by omega) fun symbol hs => ?_)
      (ihr (by omega) fun symbol hs => ?_)
    · exact hsymbols symbol (List.mem_cons_of_mem _ (List.mem_append_left _ hs))
    · exact hsymbols symbol (List.mem_cons_of_mem _ (List.mem_append_right _ hs))
  | unary op operand ih =>
    rw [Expr.height] at hheight
    rw [Expr.symbols] at hsymbols
    have hoperand := operand.height_pos
    obtain ⟨levels, rfl⟩ : ∃ below, levels = below + 1 := ⟨levels - 1, by omega⟩
    obtain ⟨hoffers, hallows⟩ := hsymbols _ List.mem_cons_self
    refine .unary hallows hoffers (ih (by omega) fun symbol hs => ?_)
    exact hsymbols symbol (List.mem_cons_of_mem _ hs)
  | var index =>
    obtain ⟨hoffers, hallows⟩ := hsymbols _ List.mem_cons_self
    exact .var (.inr hstop) hallows hoffers
  | const value =>
    obtain ⟨hoffers, hallows⟩ := hsymbols _ List.mem_cons_self
    exact .const (.inr hstop) hallows hoffers

end Grown

/-! ## Random expressions -/

/-- A random leaf is what can grow on the last level. -/
theorem possible_randomLeaf_iff : i.randomLeaf.Possible e ↔ i.Grown 0 e := by
  constructor
  · intro h
    obtain ⟨isVariable, hallows, h⟩ := Draw.possible_bind.1 h
    rw [Draw.possible_flip] at hallows
    cases isVariable with
    | true =>
      obtain ⟨index, ⟨_, hindex, rfl⟩, h⟩ := Draw.possible_bind.1 h
      obtain rfl := Draw.possible_pure.1 h
      exact .var (.inl rfl) hallows hindex
    | false =>
      obtain ⟨value, hvalue, h⟩ := Draw.possible_bind.1 h
      obtain rfl := Draw.possible_pure.1 h
      exact .const (.inl rfl) hallows (Draw.possible_member.1 hvalue)
  · intro h
    cases h with
    | var _ hallows hindex =>
      exact Draw.possible_bind.2 ⟨true, Draw.possible_flip.2 hallows,
        Draw.possible_bind.2 ⟨_, ⟨_, hindex, rfl⟩, rfl⟩⟩
    | const _ hallows hvalue =>
      exact Draw.possible_bind.2 ⟨false, Draw.possible_flip.2 hallows,
        Draw.possible_bind.2 ⟨_, Draw.possible_member.2 hvalue, rfl⟩⟩

/-- What a random expression is grows. -/
theorem grown_of_possible (h : (i.randomExpr levels).Possible e) : i.Grown levels e := by
  induction levels generalizing e with
  | zero => exact possible_randomLeaf_iff.1 h
  | succ levels ih =>
    obtain ⟨isOperator, hbranch, h⟩ := Draw.possible_bind.1 h
    rw [Draw.possible_flip] at hbranch
    cases isOperator with
    | false => exact (possible_randomLeaf_iff.1 h).of_mayStop (.inr hbranch)
    | true =>
      obtain ⟨isBinary, hbinary, h⟩ := Draw.possible_bind.1 h
      rw [Draw.possible_flip] at hbinary
      cases isBinary with
      | true =>
        obtain ⟨op, hop, h⟩ := Draw.possible_bind.1 h
        obtain ⟨left, hleft, h⟩ := Draw.possible_bind.1 h
        obtain ⟨right, hright, h⟩ := Draw.possible_bind.1 h
        obtain rfl := Draw.possible_pure.1 h
        exact .binary ⟨hbranch, hbinary⟩ (Draw.possible_member.1 hop) (ih hleft) (ih hright)
      | false =>
        obtain ⟨op, hop, h⟩ := Draw.possible_bind.1 h
        obtain ⟨operand, hoperand, h⟩ := Draw.possible_bind.1 h
        obtain rfl := Draw.possible_pure.1 h
        exact .unary ⟨hbranch, hbinary⟩ (Draw.possible_member.1 hop) (ih hoperand)

/-- What grows is what a random expression can be. -/
theorem Grown.possible (h : i.Grown levels e) : (i.randomExpr levels).Possible e := by
  -- above the last level a leaf takes a no to the question for an operator
  have hleaf {levels : Nat} {leaf : Expr} (hstop : i.MayStop levels) (h : i.Grown 0 leaf) :
      (i.randomExpr levels).Possible leaf := by
    cases levels with
    | zero => exact possible_randomLeaf_iff.2 h
    | succ levels =>
      have hbranch := hstop.resolve_left (Nat.succ_ne_zero levels)
      exact Draw.possible_bind.2
        ⟨false, Draw.possible_flip.2 hbranch, possible_randomLeaf_iff.2 h⟩
  induction h with
  | var hstop hallows hoffers => exact hleaf hstop (.var (.inl rfl) hallows hoffers)
  | const hstop hallows hoffers => exact hleaf hstop (.const (.inl rfl) hallows hoffers)
  | binary hallows hoffers _ _ ihl ihr =>
    refine Draw.possible_bind.2 ⟨true, Draw.possible_flip.2 hallows.1, ?_⟩
    refine Draw.possible_bind.2 ⟨true, Draw.possible_flip.2 hallows.2, ?_⟩
    refine Draw.possible_bind.2 ⟨_, Draw.possible_member.2 hoffers, ?_⟩
    refine Draw.possible_bind.2 ⟨_, ihl, ?_⟩
    exact Draw.possible_bind.2 ⟨_, ihr, rfl⟩
  | unary hallows hoffers _ ih =>
    refine Draw.possible_bind.2 ⟨true, Draw.possible_flip.2 hallows.1, ?_⟩
    refine Draw.possible_bind.2 ⟨false, Draw.possible_flip.2 hallows.2, ?_⟩
    refine Draw.possible_bind.2 ⟨_, Draw.possible_member.2 hoffers, ?_⟩
    exact Draw.possible_bind.2 ⟨_, ih, rfl⟩

/-- **A random expression is what can grow**, no more and no less. -/
theorem possible_randomExpr_iff : (i.randomExpr levels).Possible e ↔ i.Grown levels e :=
  ⟨grown_of_possible, Grown.possible⟩

/-- **What a random expression can be.**  It has at most the given number of
levels below its root, and no symbol that the individual does not offer. -/
theorem possible_randomExpr (h : (i.randomExpr levels).Possible e) :
    e.height ≤ levels + 1 ∧ ∀ symbol ∈ e.symbols, i.Offers symbol := by
  have hgrown := possible_randomExpr_iff.1 h
  exact ⟨hgrown.height_le, fun symbol hs => (hgrown.offers_and_allows hs).1⟩

/-! ## The questions of generation -/

theorem wellPosed_randomLeaf (h : i.settings.Valid) : i.randomLeaf.WellPosed := by
  refine Draw.wellPosed_bind.2 ⟨Settings.wellPosed_flip h.leaf, fun isVariable _ => ?_⟩
  cases isVariable with
  | true =>
    refine Draw.wellPosed_bind.2 ⟨?_, fun _ _ => trivial⟩
    exact ⟨i.dataset.variableCount_pos, fun _ _ => trivial⟩
  | false => exact Draw.wellPosed_bind.2 ⟨Draw.wellPosed_member _, fun _ _ => trivial⟩

/-- With valid settings generation asks only sensible questions. -/
theorem wellPosed_randomExpr (h : i.settings.Valid) (levels : Nat) :
    (i.randomExpr levels).WellPosed := by
  induction levels with
  | zero => exact wellPosed_randomLeaf h
  | succ levels ih =>
    refine Draw.wellPosed_bind.2 ⟨Settings.wellPosed_flip h.branch, fun isOperator _ => ?_⟩
    cases isOperator with
    | false => exact wellPosed_randomLeaf h
    | true =>
      refine Draw.wellPosed_bind.2 ⟨Settings.wellPosed_flip h.binary, fun isBinary _ => ?_⟩
      cases isBinary with
      | true =>
        refine Draw.wellPosed_bind.2 ⟨Draw.wellPosed_member _, fun op _ => ?_⟩
        refine Draw.wellPosed_bind.2 ⟨ih, fun left _ => ?_⟩
        exact Draw.wellPosed_bind.2 ⟨ih, fun right _ => trivial⟩
      | false =>
        refine Draw.wellPosed_bind.2 ⟨Draw.wellPosed_member _, fun op _ => ?_⟩
        exact Draw.wellPosed_bind.2 ⟨ih, fun operand _ => trivial⟩

/-- With valid settings filling an individual at random asks only sensible questions. -/
theorem wellPosed_populate (h : i.settings.Valid) : i.populate.WellPosed :=
  Draw.wellPosed_bind.2 ⟨wellPosed_randomExpr h _, fun _ _ => trivial⟩

end Individual

end SymbolicRegression
