/-
# One edit at one position

A mutation that reports a change has made one edit of the expression that it started
from, whatever it tried and took back on the way.  Here these edits are told by
positions alone: where in the expression something else stands afterwards, and what
that may be.

* `Individual.LocalEdit` : what each way of mutation may make of an expression;
* `Individual.LegalEdit.localEdit` : a legal edit is such an edit;
* `Individual.LegalEdit.height_le_old`, `Individual.LegalEdit.size_le_old` : only a random
  expression can be higher or larger than what it displaces.

Main statement:

* `Individual.mutation_edits_one_place` : **a reported change is one legal edit at one
  position.**
-/
import SymbolicRegression.Proofs.Evaluation
import SymbolicRegression.Proofs.Reachable

namespace SymbolicRegression

/-! ## Parts of an expression -/

namespace Expr

variable {e sub : Expr} {path : Path}

theorem size_pos (e : Expr) : 0 < e.size := by
  cases e <;> simp [size]

/-- An operator has an operand, so it takes more than one position. -/
theorem one_lt_size (h : e.isLeaf = false) : 1 < e.size := by
  cases e with
  | binary op left right =>
    have hleft := left.size_pos
    simp only [size]
    omega
  | unary op operand =>
    have hoperand := operand.size_pos
    simp only [size]
    omega
  | var index => cases h
  | const value => cases h

/-- What stands at a position has no more levels than the whole. -/
theorem height_le_of_get? (h : e.get? path = some sub) : sub.height ≤ e.height := by
  obtain ⟨_, hsplice⟩ := exists_splice_of_get? h sub
  have hpath := hsplice.length_add_height_le
  omega

/-- What stands at a position has no more positions than the whole. -/
theorem size_le_of_get? (h : e.get? path = some sub) : sub.size ≤ e.size := by
  obtain ⟨_, hsplice⟩ := exists_splice_of_get? h sub
  obtain ⟨before, after, hsymbols, -⟩ := hsplice.exists_symbols_eq
  rw [← length_symbols, ← length_symbols, hsymbols, List.length_append, List.length_append]
  omega

/-- A leaf below an operator stands below one of its operands, so it does not matter
which operator that is. -/
theorem get?_binary_eq_leaf_iff {op op' : BinaryOperator} {left right leaf : Expr}
    (hleaf : leaf.isLeaf = true) (q : Path) :
    (Expr.binary op' left right).get? q = some leaf ↔
      (Expr.binary op left right).get? q = some leaf := by
  cases q with
  | nil =>
    rw [get?_nil, get?_nil]
    constructor <;> rintro ⟨⟩ <;> cases hleaf
  | cons side q => cases side <;> exact Iff.rfl

theorem get?_unary_eq_leaf_iff {op op' : UnaryOperator} {operand leaf : Expr}
    (hleaf : leaf.isLeaf = true) (q : Path) :
    (Expr.unary op' operand).get? q = some leaf ↔
      (Expr.unary op operand).get? q = some leaf := by
  cases q with
  | nil =>
    rw [get?_nil, get?_nil]
    constructor <;> rintro ⟨⟩ <;> cases hleaf
  | cons side q => cases side <;> exact Iff.rfl

end Expr

namespace Individual

variable {i : Individual} {way : Mutation} {path : Path} {old new root root' : Expr}

/-! ## Edits by positions -/

/-- What a way of mutation may make of the expression `root` of an individual.

* A subtree: at one position there is a new expression, built from what the individual
  offers, that ends within the depth limit.
* A point: at one position there is another operator of the set over the same operands;
  all positions and all leaves are what they were.
* A permutation: at one position a binary operator has its operands exchanged, and
  exchanging them once more gives `root` back.
* Hoisting: all that is left is what stood at one operator position.
* Collapsing: at one operator position there is a constant, the mean of the values that
  stood there, their running sum divided by their number, or zero where this is not finite. -/
def LocalEdit (i : Individual) (root root' : Expr) : Mutation → Prop
  | .subtree =>
      ∃ path ∈ root.locations, ∃ new, root.replace? path new = some root' ∧
        path.length ≤ i.settings.maxDepth ∧
        new.height ≤ i.settings.maxDepth - path.length + 1 ∧
        ∀ symbol ∈ new.symbols, i.Offers symbol
  | .point =>
      (∃ path ∈ root.locations,
        (∃ op left right, root.get? path = some (.binary op left right) ∧
          ∃ op' ∈ i.primitives.operators.binary,
            root.replace? path (.binary op' left right) = some root') ∨
        ∃ op operand, root.get? path = some (.unary op operand) ∧
          ∃ op' ∈ i.primitives.operators.unary,
            root.replace? path (.unary op' operand) = some root') ∧
      root'.locations = root.locations ∧
      ∀ leaf : Expr, leaf.isLeaf = true →
        ∀ q, root'.get? q = some leaf ↔ root.get? q = some leaf
  | .permutation =>
      ∃ path ∈ root.locations, ∃ op left right,
        root.get? path = some (.binary op left right) ∧
        root.replace? path (.binary op right left) = some root' ∧
        root'.get? path = some (.binary op right left) ∧
        root'.replace? path (.binary op left right) = some root
  | .hoist =>
      ∃ path ∈ root.locations, root.get? path = some root' ∧ root'.isLeaf = false
  | .collapse =>
      ∃ path ∈ root.locations, ∃ old values, root.get? path = some old ∧ old.isLeaf = false ∧
        old.evaluate i.dataset = .ok values ∧
        let quotient := values.foldl (· + ·) (-0.0) / Float.ofNat values.length
        root.replace? path (.const (if quotient.isFinite then quotient else 0.0)) = some root'

namespace LegalEdit

/-- **A legal edit is an edit of its way at one position.** -/
theorem localEdit (h : i.LegalEdit way path old new) (hadmits : i.Admits root)
    (hsplice : Splice old new path root root') : i.LocalEdit root root' way := by
  have hold : root.get? path = some old := Expr.get?_of_splice hsplice
  have hpath : path ∈ root.locations := Expr.mem_locations_iff.2 (by rw [hold]; rfl)
  have hreplace : root.replace? path new = some root' :=
    Expr.replace?_eq_some_of_splice hsplice
  cases h with
  | subtree hnew =>
    obtain ⟨hheight, hoffers⟩ := possible_randomExpr hnew
    refine ⟨path, hpath, new, hreplace, ?_, hheight, hoffers⟩
    have hdepth := hadmits.depth_le
    have hbelow := hsplice.length_add_height_le
    have hlevel := old.height_pos
    rw [Expr.depth] at hdepth
    omega
  | pointBinary hop =>
    refine ⟨⟨path, hpath, .inl ⟨_, _, _, hold, _, hop, hreplace⟩⟩, ?_, ?_⟩
    · exact hsplice.locations_eq rfl
    · intro leaf hleaf
      exact hsplice.get?_eq_leaf_iff hleaf (Expr.get?_binary_eq_leaf_iff hleaf)
  | pointUnary hop =>
    refine ⟨⟨path, hpath, .inr ⟨_, _, hold, _, hop, hreplace⟩⟩, ?_, ?_⟩
    · exact hsplice.locations_eq rfl
    · intro leaf hleaf
      exact hsplice.get?_eq_leaf_iff hleaf (Expr.get?_unary_eq_leaf_iff hleaf)
  | permutation =>
    exact ⟨path, hpath, _, _, _, hold, hreplace, Expr.get?_of_splice hsplice.symm,
      Expr.replace?_eq_some_of_splice hsplice.symm⟩
  | @hoist place _ _ hplace hleaf =>
    -- the whole is displaced, by what stood at a position of it
    cases hsplice
    exact ⟨place, Expr.mem_locations_iff.2 (by rw [hplace]; rfl), hplace, hleaf⟩
  | collapse hleaf =>
    -- an expression within the limits has values, and so has every part of it
    have hvars : ∀ index ∈ old.vars, index < i.dataset.variableCount := by
      intro index hv
      exact hadmits.var_lt index (hsplice.mem_symbols_of_mem_old (Expr.mem_vars_iff.1 hv))
    have heval : old.evaluate i.dataset = .ok (old.values i.dataset) :=
      Expr.evaluate_eq_ok_iff.2 ⟨hvars, rfl⟩
    rw [collapsedValue, heval] at hreplace
    exact ⟨path, hpath, old, _, hold, hleaf, heval, hreplace⟩

/-! ## Measures -/

/-- Only a random expression can have more levels than what it displaces. -/
theorem height_le_old (h : i.LegalEdit way path old new) (hway : way ≠ .subtree) :
    new.height ≤ old.height := by
  cases h with
  | subtree _ => exact absurd rfl hway
  | pointBinary _ => exact Nat.le_refl _
  | pointUnary _ => exact Nat.le_refl _
  | permutation =>
    simp only [Expr.height]
    omega
  | hoist hplace _ => exact Expr.height_le_of_get? hplace
  | collapse _ => exact old.height_pos

/-- Only a random expression can have more positions than what it displaces. -/
theorem size_le_old (h : i.LegalEdit way path old new) (hway : way ≠ .subtree) :
    new.size ≤ old.size := by
  cases h with
  | subtree _ => exact absurd rfl hway
  | pointBinary _ => exact Nat.le_refl _
  | pointUnary _ => exact Nat.le_refl _
  | permutation =>
    simp only [Expr.size]
    omega
  | hoist hplace _ => exact Expr.size_le_of_get? hplace
  | collapse _ => exact old.size_pos

/-- A constant has fewer positions than the operator position that it displaces. -/
theorem size_lt_old (h : i.LegalEdit .collapse path old new) : new.size < old.size := by
  cases h with
  | collapse hleaf => exact Expr.one_lt_size hleaf

end LegalEdit

/-! ## Main statement -/

/-- **A reported change is one legal edit at one position.**  Whatever the words, a mutation
of an individual of a search that reports a change has made of its expression what the way
of mutation allows, by an edit at one position, however many other edits it tried before.
Unless a random expression was put in, the expression becomes neither deeper nor larger, and
collapsing makes it smaller. -/
theorem mutation_edits_one_place (hi : Reachable i) (hroot : i.root = some root)
    (way : Mutation) {σ : Type} [WordSource σ] (s : σ)
    (hchanged : ((i.applyMutation way).run s).1.changed = true) :
    ∃ root', ((i.applyMutation way).run s).1.individual.root = some root' ∧
      i.LocalEdit root root' way ∧
      (way ≠ .subtree → root'.depth ≤ root.depth ∧ root'.size ≤ root.size) ∧
      (way = .collapse → root'.size < root.size) := by
  have hsound : i.Sound := hi.sound
  have hmutated : Mutated i way ((i.applyMutation way).run s).1 := mutated_run hsound.valid way s
  generalize ((i.applyMutation way).run s).1 = o at hmutated hchanged
  cases hmutated with
  | kept log => cases hchanged
  | rescored log => cases hchanged
  | @committed _ path old new hlegal hedit _ _ =>
    obtain ⟨before, root', hbefore, hafter, hsplice⟩ := hedit.exists_splice
    obtain rfl : root = before := Option.some.inj (hroot.symm.trans hbefore)
    have hsize := hsplice.size_add
    refine ⟨root', hafter, hlegal.localEdit (hsound.admits root hroot) hsplice, ?_, ?_⟩
    · intro hway
      have hheight := hsplice.height_le_of_height_le (hlegal.height_le_old hway)
      have hle := hlegal.size_le_old hway
      constructor
      · exact Nat.sub_le_sub_right hheight 1
      · omega
    · rintro rfl
      have hlt := hlegal.size_lt_old
      omega

/-- Collapsing the parabola, with a word that chooses its root, leaves less than it was. -/
theorem mutation_edits_one_place_parabola :
    Reachable parabola ∧
      let o := ((parabola.applyMutation .collapse).run
        (⟨[0], Xoshiro256.ofSeed 0, 0⟩ : ScriptedWords)).1
      o.changed = true ∧ ∃ root', o.individual.root = some root' ∧
        parabola.LocalEdit squared root' .collapse ∧ root'.size < squared.size := by
  have hchanged : ((parabola.applyMutation .collapse).run
      (⟨[0], Xoshiro256.ofSeed 0, 0⟩ : ScriptedWords)).1.changed = true := by
    decide +kernel
  obtain ⟨root', hroot', hedit, -, hsmaller⟩ :=
    mutation_edits_one_place reachable_parabola root_parabola .collapse _ hchanged
  exact ⟨reachable_parabola, hchanged, root', hroot', hedit, hsmaller rfl⟩

end Individual

end SymbolicRegression
