/-
# Collapsing what is constant

An expression without variables has one and the same value at every sample.  Collapsing
it puts the mean of that value, once for each sample, in its place.  In exact arithmetic
the mean would be the value; in the arithmetic of doubles it is so where the sums on the
way are exact, and otherwise only nearly so.

* `Expr.value_eq_of_evaluate` : without variables the value is the same everywhere;
* `Expr.evaluate_congr`, `Splice.evaluate_eq` : an edit between equals changes no values;
* `FoldedTo` : the constant that copies of a double are folded to;
* `Individual.foldedTo_collapsedValue` : it takes the place of an expression;
* `Individual.EditedTo.predict_eq` : when it is not noticed.

Main statement:

* `Individual.collapse_folds` : how near the constant is, and when nothing changes at all.
-/
import SymbolicRegression.Proofs.LocalEdit
import SymbolicRegression.Proofs.Registration
import SymbolicRegression.Proofs.RepeatedSum
import SymbolicRegression.Proofs.Surroundings

namespace SymbolicRegression

/-! ## Values without variables -/

namespace Expr

variable {d : Dataset} {e e' : Expr} {c : Float}

/-- The value of an expression depends on its variables only. -/
theorem value_congr {assignment assignment' : Nat → Float}
    (h : ∀ index ∈ e.vars, assignment index = assignment' index) :
    e.value assignment = e.value assignment' := by
  induction e with
  | const value => rfl
  | var index => exact h index (List.mem_singleton.2 rfl)
  | unary op operand ih => rw [value, value, ih h]
  | binary op left right ihl ihr =>
    have hleft := ihl fun index hindex => h index (List.mem_append_left _ hindex)
    have hright := ihr fun index hindex => h index (List.mem_append_right _ hindex)
    rw [value, value, hleft, hright]

/-- An expression without variables that has the value `c` at the samples of one dataset
has it everywhere. -/
theorem value_eq_of_evaluate (hvars : e.vars = [])
    (heval : e.evaluate d = .ok (List.replicate d.sampleCount c)) (assignment : Nat → Float) :
    e.value assignment = c := by
  obtain ⟨-, hvalues⟩ := evaluate_eq_ok_iff.1 heval
  -- a dataset has a first sample
  have hmem : e.value (d.sample 0) ∈ e.values d := by
    rw [values, List.mem_map]
    exact ⟨0, List.mem_range.2 d.sampleCount_pos, rfl⟩
  rw [← hvalues] at hmem
  rw [← List.eq_of_mem_replicate hmem]
  apply value_congr
  intro index hindex
  rw [hvars] at hindex
  cases hindex

/-- Expressions with the same variables and the same values are evaluated alike. -/
theorem evaluate_congr (hvars : e.vars = e'.vars)
    (hvalue : ∀ assignment, e.value assignment = e'.value assignment) (d : Dataset) :
    e.evaluate d = e'.evaluate d := by
  have hunknown : e.unknownVar? d = e'.unknownVar? d := by
    rw [unknownVar?, unknownVar?, hvars]
  have hvalues : e.values d = e'.values d := by
    rw [values, values]
    simp only [hvalue]
  rw [evaluate_eq, evaluate_eq, hunknown, hvalues]

end Expr

/-! ## Edits between equals -/

namespace Splice

variable {old new e e' : Expr} {path : Path}

/-- **An edit between equals changes no values**, on any dataset. -/
theorem evaluate_eq (h : Splice old new path e e') (hvars : old.vars = new.vars)
    (hvalue : ∀ assignment, old.value assignment = new.value assignment) (d : Dataset) :
    e.evaluate d = e'.evaluate d :=
  (h.evaluate_congr (Expr.evaluate_congr hvars hvalue d).symm).symm

end Splice

/-! ## The constant -/

/-- The running sum of `n` copies of a double. -/
def copiesSum (c : Float) : ℕ → Float
  | 0 => -0.0
  | n + 1 => copiesSum c n + c

/-- It is the sum of a batch in which each sample has that value. -/
theorem total_replicate_eq (n : ℕ) (c : Float) : total (List.replicate n c) = copiesSum c n := by
  induction n with
  | zero => rfl
  | succ n ih => rw [total_replicate_succ, ih, copiesSum]

/-- `v` is the constant that `n` copies of `c` are folded to.

* While their running sum is finite it is the quotient of this sum by their number, and it is
  off by no more than the rounding of the sums and of the quotient allows.
* It is zero where the sum is not finite.
* It is `c` itself where all multiples of `c` up to the `n`-th are doubles. -/
structure FoldedTo (n : ℕ) (c v : Float) : Prop where
  quotient : (copiesSum c n).isFinite = true → v = copiesSum c n / Float.ofNat n
  near : (copiesSum c n).isFinite = true →
    |doubleValue v - doubleValue c| ≤ relativeError n * |doubleValue c| + 2 ^ (-1075 : ℤ)
  overflow : (copiesSum c n).isFinite = false → v = 0.0
  unrounded : (∀ k ≤ n, IsDouble (k * doubleValue c)) → v = c

namespace Individual

variable {d : Dataset}

section Collapsed

variable {e : Expr} {c : Float}

/-- What takes the place of an expression with one value at all samples. -/
theorem collapsedValue_eq (heval : e.evaluate d = .ok (List.replicate d.sampleCount c)) :
    collapsedValue d e =
      if (mean (List.replicate d.sampleCount c)).isFinite then
        mean (List.replicate d.sampleCount c)
      else 0.0 := by
  rw [collapsedValue, heval]

/-- **The values of an expression that is the same everywhere are folded.** -/
theorem foldedTo_collapsedValue (hfinite : c.isFinite = true)
    (heval : e.evaluate d = .ok (List.replicate d.sampleCount c)) :
    FoldedTo d.sampleCount c (collapsedValue d e) := by
  have hpos := d.sampleCount_pos
  have hmean := isFinite_mean_replicate_iff hfinite hpos
  rw [collapsedValue_eq heval]
  refine { quotient := ?_, near := ?_, overflow := ?_, unrounded := ?_ }
  · intro hsum
    rw [← total_replicate_eq] at hsum ⊢
    rw [if_pos (hmean.2 hsum), mean_replicate]
  · intro hsum
    rw [← total_replicate_eq] at hsum
    rw [if_pos (hmean.2 hsum)]
    exact abs_doubleValue_mean_sub_le hfinite hpos hsum
  · intro hsum
    rw [← total_replicate_eq] at hsum
    refine if_neg fun hmeanFinite => ?_
    rw [hmean.1 hmeanFinite] at hsum
    cases hsum
  · intro hmultiples
    rw [mean_replicate_eq_of_isDouble hfinite hpos hmultiples, if_pos hfinite]

end Collapsed

/-! ## Edits of individuals -/

/-- For an operator position a collapse has the constant that stands for its values. -/
theorem collapsed?_eq_some {i : Individual} {path : Path} {e : Expr} (hget : i.get? path = some e)
    (hleaf : e.isLeaf = false) :
    i.collapsed? path = some (.const (collapsedValue i.dataset e)) := by
  rw [collapsed?, hget]
  simp only [hleaf, Bool.false_eq_true, if_false]

/-- **Putting a value in the place of an expression that has no other is not noticed**: the
predictions on every dataset stay, and so does the fitness. -/
theorem EditedTo.predict_eq {i j : Individual} {path : Path} {e : Expr} {c : Float}
    (h : i.EditedTo path e (.const c) j) (hscored : i.Scored) (hvars : e.vars = [])
    (heval : e.evaluate i.dataset = .ok (List.replicate i.dataset.sampleCount c)) :
    (∀ d, j.predict d = i.predict d) ∧ j.fitness = i.fitness := by
  obtain ⟨root, root', hroot, hroot', hsplice⟩ := h.exists_splice
  -- neither the expression nor the constant has variables, and both have the value `c`
  have hequal : ∀ d, root.evaluate d = root'.evaluate d :=
    hsplice.evaluate_eq hvars (Expr.value_eq_of_evaluate hvars heval)
  have hpredict : ∀ d, j.predict d = i.predict d :=
    fun d => predict_congr hroot hroot' (hequal d)
  exact ⟨hpredict, hscored.fitness_congr h.scored h.frame.2.2 (hpredict i.dataset)⟩

/-! ## Samples -/

/-- Three samples of one tenth. -/
def threeTenths : Dataset where
  features := [[1.0, 2.0, 3.0]]
  targets := [0.1, 0.1, 0.1]
  features_ne_nil := by simp
  targets_ne_nil := by simp
  rectangular := by simp
  features_finite := by decide
  targets_finite := by decide

/-- An individual over these samples. -/
def overTenths (primitives : PrimitiveSet) (root : Expr) : Individual :=
  Individual.tryRoot ⟨none, invalidFitness, {}, primitives, threeTenths⟩ root

theorem reachable_overTenths (primitives : PrimitiveSet) (root : Expr) :
    Reachable (overTenths primitives root) :=
  reachable_tryRoot valid_default primitives threeTenths root

theorem root_overTenths {primitives : PrimitiveSet} {root : Expr}
    (h : (Individual.mk none invalidFitness {} primitives threeTenths).rootFault? root = none) :
    (overTenths primitives root).root = some root ∧
      (overTenths primitives root).dataset = threeTenths := by
  rw [overTenths, tryRoot_eq (rootFault?_eq_none_iff.1 h)]
  exact ⟨root_rescore _, dataset_rescore _⟩

/-- Twice three. -/
def product : Expr := .binary ⟨"multiply", fun x y => x * y⟩ (.const 2.0) (.const 3.0)

/-- An individual with this product. -/
def flat : Individual := overTenths unguarded product

/-- One tenth, as the negative of its negative. -/
def tenth : Expr := .unary ⟨"negative", Kernel.negative⟩ (.const (-0.1))

/-- An individual with this tenth, which fits perfectly. -/
def perfect : Individual := overTenths guarded tenth

/-- Whether an expression is a given constant; operators cannot be compared, constants can. -/
def isConstant (root : Option Expr) (value : Float) : Bool :=
  match root with
  | some (.const found) => found = value
  | _ => false

theorem eq_of_isConstant {root : Option Expr} {value : Float} (h : isConstant root value = true) :
    root = some (.const value) := by
  unfold isConstant at h
  split at h
  · rw [of_decide_eq_true h]
  · cases h

/-! ## Main statement -/

/-- **Collapsing an expression without variables is constant folding, up to rounding.**  Let
an operator position have the finite value `c` at every sample.

* What a collapse has for this position, in whatever individual, is the constant that as many
  copies of `c` as there are samples are folded to.
* A collapse of an individual of a search that is reported has put one constant in the place
  of one operator position, whatever the words, and nothing else is different.  If it is such
  a position, the constant is what the copies of `c` are folded to; and if this is `c`, and
  there are no variables below the position, the predictions on every dataset and the fitness
  are exactly what they were. -/
theorem collapse_folds (i : Individual) :
    (∀ path e c, i.get? path = some e → e.isLeaf = false → c.isFinite = true →
      e.evaluate i.dataset = .ok (List.replicate i.dataset.sampleCount c) →
      ∃ v, i.collapsed? path = some (.const v) ∧ FoldedTo i.dataset.sampleCount c v) ∧
    (Reachable i → ∀ {σ : Type} [WordSource σ] (s : σ),
      let o := ((i.applyMutation .collapse).run s).1
      o.changed = true →
        ∃ root root' path e v, i.root = some root ∧ root.get? path = some e ∧ e.isLeaf = false ∧
          root.replace? path (.const v) = some root' ∧ o.individual.root = some root' ∧
          ∀ c, c.isFinite = true →
            e.evaluate i.dataset = .ok (List.replicate i.dataset.sampleCount c) →
            FoldedTo i.dataset.sampleCount c v ∧
            (e.vars = [] → v = c → (∀ d, o.individual.predict d = i.predict d) ∧
              o.individual.fitness = i.fitness)) := by
  constructor
  · intro path e c hget hleaf hfinite heval
    exact ⟨_, collapsed?_eq_some hget hleaf, foldedTo_collapsedValue hfinite heval⟩
  · intro hi σ _ s o hchanged
    have hmutated : Mutated i .collapse o := mutated_run hi.sound.valid .collapse s
    clear_value o
    cases hmutated with
    | kept log => cases hchanged
    | rescored log => cases hchanged
    | @committed _ path e new hlegal hedit _ _ =>
      cases hlegal with
      | collapse hleaf =>
        obtain ⟨root, root', hroot, hroot', hsplice⟩ := hedit.exists_splice
        refine ⟨root, root', path, e, _, hroot, Expr.get?_of_splice hsplice, hleaf,
          Expr.replace?_eq_some_of_splice hsplice, hroot', ?_⟩
        intro c hfinite heval
        refine ⟨foldedTo_collapsedValue hfinite heval, fun hvars hsame => ?_⟩
        rw [hsame] at hedit
        exact hedit.predict_eq hi.sound.scored hvars heval

/-- Its only operator position is the root of the product. -/
theorem product_get?_eq {path : Path} {e : Expr} (h : product.get? path = some e)
    (hleaf : e.isLeaf = false) : path = [] ∧ e = product := by
  cases path with
  | nil => exact ⟨rfl, (Option.some.inj h).symm⟩
  | cons side path =>
    cases side <;> cases path <;> cases h <;> cases hleaf

/-- Twice three at three samples: the multiples of six are doubles, and a word that chooses
the root makes the product the constant six. -/
theorem collapse_folds_product :
    Reachable flat ∧ flat.root = some product ∧ product.vars = [] ∧
      (6.0 : Float).isFinite = true ∧
      product.evaluate flat.dataset = .ok (List.replicate flat.dataset.sampleCount 6.0) ∧
      (∀ k : ℕ, k ≤ flat.dataset.sampleCount → IsDouble (k * doubleValue 6.0)) ∧
      flat.collapsed? [] = some (.const 6.0) ∧
      let o := ((flat.applyMutation .collapse).run
        (⟨[0], Xoshiro256.ofSeed 0, 0⟩ : ScriptedWords)).1
      o.changed = true ∧ o.individual.root = some (.const 6.0) ∧
        (∀ d, o.individual.predict d = flat.predict d) ∧
        o.individual.fitness = flat.fitness := by
  have hflat : Reachable flat := reachable_overTenths unguarded product
  obtain ⟨hproduct, hdataset⟩ : flat.root = some product ∧ flat.dataset = threeTenths :=
    root_overTenths rfl
  have hfinite : (6.0 : Float).isFinite = true := by decide +kernel
  have heval : product.evaluate flat.dataset =
      .ok (List.replicate flat.dataset.sampleCount 6.0) := by
    rw [hdataset]
    rfl
  have hmultiples : ∀ k : ℕ, k ≤ flat.dataset.sampleCount → IsDouble (k * doubleValue 6.0) := by
    have hsix : (6.0 : Float) = Float.ofNat 6 := by decide +kernel
    intro k hk
    rw [hdataset] at hk
    have hk : k ≤ 3 := hk
    rw [hsix, doubleValue_ofNat (by decide), ← Nat.cast_mul]
    exact isDouble_natCast (by omega)
  have hchanged : ((flat.applyMutation .collapse).run
      (⟨[0], Xoshiro256.ofSeed 0, 0⟩ : ScriptedWords)).1.changed = true := by decide +kernel
  obtain ⟨hproposed, hcommitted⟩ := collapse_folds flat
  have hget : flat.get? [] = some product := by rw [get?, hproduct]; rfl
  obtain ⟨v, hv, hfolded⟩ := hproposed [] product 6.0 hget rfl hfinite heval
  obtain rfl : v = 6.0 := hfolded.unrounded hmultiples
  obtain ⟨root, root', path, e, v, hroot, hplace, hleaf, hreplace, hroot', hconstant⟩ :=
    hcommitted hflat _ hchanged
  obtain rfl : product = root := Option.some.inj (hproduct.symm.trans hroot)
  obtain ⟨rfl, rfl⟩ := product_get?_eq hplace hleaf
  obtain ⟨hfolded', hsame⟩ := hconstant 6.0 hfinite heval
  obtain rfl : v = 6.0 := hfolded'.unrounded hmultiples
  obtain rfl : Expr.const 6.0 = root' := Option.some.inj hreplace
  exact ⟨hflat, hproduct, rfl, hfinite, heval, hmultiples, hv, hchanged, hroot', hsame rfl rfl⟩

/-- One tenth at three samples: the sum of three tenths is rounded, and a word that chooses
the root puts a constant in its place that is not one tenth. -/
theorem collapse_tenth :
    Reachable perfect ∧ perfect.root = some tenth ∧ perfect.dataset = threeTenths ∧
      tenth.vars = [] ∧ (0.1 : Float).isFinite = true ∧
      tenth.evaluate threeTenths = .ok (List.replicate 3 0.1) ∧
      let o := ((perfect.applyMutation .collapse).run
        (⟨[0], Xoshiro256.ofSeed 0, 0⟩ : ScriptedWords)).1
      o.changed = true ∧ o.individual.root = some (.const 0.10000000000000002) ∧
        (0.10000000000000002 : Float) ≠ 0.1 ∧
        o.individual.predict threeTenths ≠ perfect.predict threeTenths ∧
        perfect.fitness = 0.0 ∧ o.individual.fitness ≠ 0.0 := by
  obtain ⟨htenth, hdataset⟩ : perfect.root = some tenth ∧ perfect.dataset = threeTenths :=
    root_overTenths rfl
  refine ⟨reachable_overTenths guarded tenth, htenth, hdataset, rfl, by decide +kernel,
    by decide +kernel, ?_⟩
  intro o
  have hroot : o.individual.root = some (.const 0.10000000000000002) :=
    eq_of_isConstant (by decide +kernel)
  exact ⟨by decide +kernel, hroot, by decide +kernel, by decide +kernel, by decide +kernel,
    by decide +kernel⟩

end Individual

end SymbolicRegression
