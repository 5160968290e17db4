/-
# The reach of the random search

What generation, mutation and recombination may do, they can do: for every legal
expression and every legal edit there is a script of words that leads to it.  The
probabilities have to be open for that, and what an individual consists of has to be
counted by words.

* `Settings.Open` : the probabilities leave every question of generation open;
* `Individual.Addressable` : a word is enough to tell each part of an individual;
* `Individual.possible_generate`, `Individual.possible_tryEdit_of_splice`,
  `Individual.possible_tryHoist_of_get?`, `Individual.possible_tryExchange_of_splice` : what is
  legal can be the outcome of a first try.

Main statement:

* `Individual.nothing_legal_out_of_reach` : **a script leads to every legal expression, and
  to every legal edit.**
-/
import SymbolicRegression.Proofs.Chance
import SymbolicRegression.Proofs.Reachable
import SymbolicRegression.Proofs.Script

namespace SymbolicRegression

/-- Settings under which no question of generation is decided beforehand. -/
structure Settings.Open (s : Settings) : Prop where
  branch : OpenChance s.branchProbability
  binary : OpenChance s.binaryProbability
  leaf : OpenChance s.variableProbability

namespace Individual

/-- What an individual consists of is counted by 64-bit words, as everything is that stands
in a memory with such addresses. -/
structure Addressable (i : Individual) : Prop where
  unary_lt : i.primitives.operators.unary.length < UInt64.size
  binary_lt : i.primitives.operators.binary.length < UInt64.size
  constants_lt : i.primitives.constants.values.length < UInt64.size
  variables_lt : i.dataset.variableCount < UInt64.size
  size_lt : i.size < UInt64.size

variable {i a b : Individual} {levels : Nat} {e old new root root' : Expr} {path : Path}

/-- The positions of an addressable individual can be counted in a word. -/
theorem Addressable.length_locations_lt (hi : i.Addressable) :
    i.locations.length < UInt64.size := by
  have hsize := hi.size_lt
  unfold locations
  unfold size at hsize
  split
  · rename_i root hroot
    rw [hroot] at hsize
    rw [Expr.length_locations]
    exact hsize
  · decide

/-! ## Generation -/

/-- Open settings allow every kind of symbol. -/
theorem allows_of_open (h : i.settings.Open) (symbol : Symbol) : i.Allows symbol := by
  cases symbol with
  | binary op => exact ⟨h.branch.chanceAllows true, h.binary.chanceAllows true⟩
  | unary op => exact ⟨h.branch.chanceAllows true, h.binary.chanceAllows false⟩
  | var index => exact h.leaf.chanceAllows true
  | const value => exact h.leaf.chanceAllows false

/-- **All that is legal can be generated.** -/
theorem possible_generate (h : i.settings.Open) (hheight : e.height ≤ levels + 1)
    (hoffers : ∀ symbol ∈ e.symbols, i.Offers symbol) : (i.randomExpr levels).Possible e := by
  refine possible_randomExpr_iff.2 (.of_height_le (h.branch.chanceAllows false) hheight ?_)
  intro symbol hs
  exact ⟨hoffers symbol hs, allows_of_open h symbol⟩

/-- A random leaf asks for a variable or a constant, which words can tell. -/
theorem addressable_randomLeaf (hi : i.Addressable) : i.randomLeaf.Addressable := by
  refine Draw.addressable_bind.2 ⟨Draw.addressable_flip _, fun isVariable _ => ?_⟩
  cases isVariable with
  | true =>
    refine Draw.addressable_bind.2 ⟨?_, fun _ _ => trivial⟩
    exact ⟨hi.variables_lt, fun _ _ => trivial⟩
  | false =>
    refine Draw.addressable_bind.2 ⟨?_, fun _ _ => trivial⟩
    exact Draw.addressable_member _ hi.constants_lt

/-- Generation asks for members of the lists of the individual, which words can tell. -/
theorem addressable_randomExpr (hi : i.Addressable) (levels : Nat) :
    (i.randomExpr levels).Addressable := by
  induction levels with
  | zero => exact addressable_randomLeaf hi
  | succ levels ih =>
    refine Draw.addressable_bind.2 ⟨Draw.addressable_flip _, fun isOperator _ => ?_⟩
    cases isOperator with
    | false => exact addressable_randomLeaf hi
    | true =>
      refine Draw.addressable_bind.2 ⟨Draw.addressable_flip _, fun isBinary _ => ?_⟩
      cases isBinary with
      | true =>
        refine Draw.addressable_bind.2 ⟨Draw.addressable_member _ hi.binary_lt, fun op _ => ?_⟩
        refine Draw.addressable_bind.2 ⟨ih, fun left _ => ?_⟩
        exact Draw.addressable_bind.2 ⟨ih, fun right _ => trivial⟩
      | false =>
        refine Draw.addressable_bind.2 ⟨Draw.addressable_member _ hi.unary_lt, fun op _ => ?_⟩
        exact Draw.addressable_bind.2 ⟨ih, fun operand _ => trivial⟩

/-! ## Replacing a subtree -/

/-- The first try of a search can commit to any edit that is proposed and gives a finite
fitness. -/
theorem possible_tryEdit_of_splice {propose : Individual → Path → Draw (Option Expr)}
    (hroot : i.root = some root) (h : Splice old new path root root')
    (hpropose : (propose i path).Possible (some new))
    (hvalid : (i.scoredWith root').isValid = true) :
    (tryEdit propose i.locations i.fitness ⟨i, []⟩).Possible
      (.inl ⟨i.scoredWith root', true, []⟩) := by
  have hmem : path ∈ i.locations := mem_locations hroot (Expr.get?_of_splice h)
  refine Draw.possible_bind.2 ⟨some path, Draw.possible_element?_of_mem hmem, ?_⟩
  refine Draw.possible_bind.2 ⟨some new, hpropose, ?_⟩
  have hlog := log_rescore_of_isValid hvalid
  rw [scoredWith] at hvalid
  refine Draw.possible_pure.2 ?_
  rw [tryAt_eq hroot h]
  simp only [hvalid, hlog, if_true, List.append_nil, scoredWith]

/-- A try asks for a position, and then what its proposal asks. -/
theorem addressable_tryEdit {propose : Individual → Path → Draw (Option Expr)}
    (hi : i.Addressable) (hpropose : ∀ path, (propose i path).Addressable) (fitness : Float) :
    (tryEdit propose i.locations fitness ⟨i, []⟩).Addressable := by
  refine Draw.addressable_bind.2
    ⟨Draw.addressable_element? hi.length_locations_lt, fun path? _ => ?_⟩
  cases path? with
  | none => trivial
  | some path =>
    refine Draw.addressable_bind.2 ⟨hpropose path, fun new? _ => ?_⟩
    cases new? with
    | none => trivial
    | some new => trivial

/-- A script leads the replacement of a subtree to any legal result. -/
theorem exists_script_mutateSubtree (hi : i.Addressable) (hopen : i.settings.Open)
    (hattempts : 0 < i.settings.attempts) (hroot : i.root = some root)
    (h : Splice old new path root root')
    (hheight : new.height ≤ i.settings.maxDepth - path.length + 1)
    (hoffers : ∀ symbol ∈ new.symbols, i.Offers symbol)
    (hvalid : (i.scoredWith root').isValid = true) :
    ∃ script, i.mutateSubtree.LeadsTo script ⟨i.scoredWith root', true, []⟩ := by
  have hpropose : (freshSubtree i path).Possible (some new) :=
    Draw.possible_bind.2 ⟨new, possible_generate hopen hheight hoffers, rfl⟩
  have hquestions (path : Path) : (freshSubtree i path).Addressable :=
    Draw.addressable_bind.2 ⟨addressable_randomExpr hi _, fun _ _ => trivial⟩
  obtain ⟨script, hscript⟩ := Draw.exists_script (addressable_tryEdit hi hquestions i.fitness)
    (possible_tryEdit_of_splice hroot h hpropose hvalid)
  exact ⟨script, hscript.retry hattempts⟩

/-! ## Hoisting -/

/-- One try can hoist any operator application. -/
theorem possible_tryHoist_of_get? (hroot : i.root = some root) (hget : root.get? path = some e)
    (hleaf : e.isLeaf = false) :
    i.tryHoist.Possible (.inl ({ i with root := some e } : Individual).rescore.outcome) := by
  have hmem : path ∈ i.locations := mem_locations hroot hget
  refine Draw.possible_bind.2 ⟨some path, Draw.possible_element?_of_mem hmem, ?_⟩
  simp only [(get?_eq hroot).trans hget, hleaf]
  exact Draw.possible_pure.2 rfl

/-- A hoist asks for a position, which words can tell. -/
theorem addressable_tryHoist (hi : i.Addressable) : i.tryHoist.Addressable := by
  refine Draw.addressable_bind.2
    ⟨Draw.addressable_element? hi.length_locations_lt, fun path? _ => ?_⟩
  cases path? with
  | none => trivial
  | some path =>
    simp only
    split
    · trivial
    · split
      · trivial
      · trivial

/-- A script leads the hoisting of a subtree to any operator position. -/
theorem exists_script_mutateHoist (hi : i.Addressable) (hroot : i.root = some root)
    (hget : root.get? path = some e) (hleaf : e.isLeaf = false) :
    ∃ script, i.mutateHoist.LeadsTo script
      ({ i with root := some e } : Individual).rescore.outcome := by
  obtain ⟨script, hscript⟩ := Draw.exists_script (addressable_tryHoist hi)
    (possible_tryHoist_of_get? hroot hget hleaf)
  exact ⟨script, hscript.retry (Nat.succ_pos _)⟩

/-! ## Recombination -/

section Exchange

variable {root₁ root₂ root₁' root₂' e₁ e₂ : Expr} {path₁ path₂ : Path}

/-- The first try of a recombination can make any exchange that fits and gives both a finite
fitness. -/
theorem possible_tryExchange_of_splice {maxDepth : Nat} (ha : a.root = some root₁)
    (hb : b.root = some root₂) (h₁ : Splice e₁ e₂ path₁ root₁ root₁')
    (h₂ : Splice e₂ e₁ path₂ root₂ root₂')
    (hfits : exchangeFits maxDepth path₁ path₂ e₁ e₂ = true)
    (hvalid₁ : (a.scoredWith root₁').isValid = true)
    (hvalid₂ : (b.scoredWith root₂').isValid = true) :
    (tryExchange maxDepth a.locations b.locations ⟨a, b, []⟩).Possible
      (.inl ⟨a.scoredWith root₁', b.scoredWith root₂', []⟩) := by
  have hmem₁ : path₁ ∈ a.locations := mem_locations ha (Expr.get?_of_splice h₁)
  have hmem₂ : path₂ ∈ b.locations := mem_locations hb (Expr.get?_of_splice h₂)
  refine Draw.possible_bind.2 ⟨some path₁, Draw.possible_element?_of_mem hmem₁, ?_⟩
  refine Draw.possible_bind.2 ⟨some path₂, Draw.possible_element?_of_mem hmem₂, ?_⟩
  have hlog₁ := log_rescore_of_isValid hvalid₁
  have hlog₂ := log_rescore_of_isValid hvalid₂
  rw [scoredWith] at hvalid₁ hvalid₂
  have hexchange := exchangeAt_eq ha hb h₁ h₂ maxDepth a.fitness b.fitness []
  simp only [hfits, hvalid₁, hvalid₂, hlog₁, hlog₂, Bool.and_true, if_true, List.append_nil]
    at hexchange
  exact Draw.possible_pure.2 hexchange

/-- An exchange asks for two positions, which words can tell. -/
theorem addressable_tryExchange {maxDepth : Nat} (ha : a.Addressable) (hb : b.Addressable) :
    (tryExchange maxDepth a.locations b.locations ⟨a, b, []⟩).Addressable := by
  refine Draw.addressable_bind.2
    ⟨Draw.addressable_element? ha.length_locations_lt, fun path₁? _ => ?_⟩
  refine Draw.addressable_bind.2
    ⟨Draw.addressable_element? hb.length_locations_lt, fun path₂? _ => ?_⟩
  cases path₁? with
  | none => trivial
  | some path₁ =>
    cases path₂? with
    | none => trivial
    | some path₂ => trivial

/-- A script leads a recombination to any exchange that it may make. -/
theorem exists_script_recombine (hwords₁ : a.Addressable) (hwords₂ : b.Addressable)
    (hattempts : 0 < a.settings.attempts) (ha : a.root = some root₁) (hb : b.root = some root₂)
    (h₁ : Splice e₁ e₂ path₁ root₁ root₁') (h₂ : Splice e₂ e₁ path₂ root₂ root₂')
    (hfits : exchangeFits (min a.settings.maxDepth b.settings.maxDepth) path₁ path₂ e₁ e₂ = true)
    (hvalid₁ : (a.scoredWith root₁').isValid = true)
    (hvalid₂ : (b.scoredWith root₂').isValid = true) :
    ∃ script, (a.recombine b).LeadsTo script
      ⟨a.scoredWith root₁', b.scoredWith root₂', []⟩ := by
  obtain ⟨script, hscript⟩ := Draw.exists_script (addressable_tryExchange hwords₁ hwords₂)
    (possible_tryExchange_of_splice ha hb h₁ h₂ hfits hvalid₁ hvalid₂)
  exact ⟨script, hscript.retry hattempts⟩

end Exchange

/-! ## Main statement -/

/-- **Nothing legal is out of reach.**  With open probabilities some script leads generation
between two depths to any expression that fits between them and is built from what the
individual offers.  If the individual is reachable and has the expression `root`, some script
leads the replacement of a subtree to any such expression in any place, if it fits there and
makes the fitness finite; some script leads hoisting to any operator position; and some script
leads recombination to the exchange at any two positions, if it fits the smaller limit both
ways and makes both fitnesses finite. -/
theorem nothing_legal_out_of_reach (hwords : i.Addressable) :
    (i.settings.Open → ∀ rootDepth maxDepth e, e.height ≤ maxDepth - rootDepth + 1 →
      (∀ symbol ∈ e.symbols, i.Offers symbol) →
      ∃ script, (i.generate rootDepth maxDepth).LeadsTo script e) ∧
    (Reachable i → ∀ root, i.root = some root →
      (i.settings.Open → ∀ path ∈ root.locations, ∀ new root',
        new.height ≤ i.settings.maxDepth - path.length + 1 →
        (∀ symbol ∈ new.symbols, i.Offers symbol) → root.replace? path new = some root' →
        (i.scoredWith root').isValid = true →
        ∃ script, i.mutateSubtree.LeadsTo script ⟨i.scoredWith root', true, []⟩) ∧
      (∀ path e, root.get? path = some e → e.isLeaf = false →
        ∃ script log, i.mutateHoist.LeadsTo script ⟨i.scoredWith e, true, log⟩) ∧
      ∀ (other : Individual) (root₂ : Expr), other.Addressable → other.root = some root₂ →
        ∀ path₁ path₂ e₁ e₂ root₁' root₂', root.get? path₁ = some e₁ →
          root₂.get? path₂ = some e₂ →
          path₁.length + e₂.height ≤ min i.settings.maxDepth other.settings.maxDepth →
          path₂.length + e₁.height ≤ min i.settings.maxDepth other.settings.maxDepth →
          root.replace? path₁ e₂ = some root₁' → root₂.replace? path₂ e₁ = some root₂' →
          (i.scoredWith root₁').isValid = true → (other.scoredWith root₂').isValid = true →
          ∃ script, (i.recombine other).LeadsTo script
            ⟨i.scoredWith root₁', other.scoredWith root₂', []⟩) := by
  constructor
  · intro hopen rootDepth maxDepth e hheight hoffers
    exact Draw.exists_script (addressable_randomExpr hwords _)
      (possible_generate hopen hheight hoffers)
  · intro hi root hroot
    have hattempts : 0 < i.settings.attempts := hi.sound.valid.attempts_pos
    refine ⟨?_, ?_, ?_⟩
    · intro hopen path hmem new root' hheight hoffers hreplace hvalid
      obtain ⟨old, hold⟩ := Option.isSome_iff_exists.1 (Expr.mem_locations_iff.1 hmem)
      have hsplice := Expr.splice_of_replace? hold hreplace
      exact exists_script_mutateSubtree hwords hopen hattempts hroot hsplice hheight hoffers hvalid
    · intro path e hget hleaf
      obtain ⟨script, hscript⟩ := exists_script_mutateHoist hwords hroot hget hleaf
      exact ⟨script, _, hscript⟩
    · intro other root₂ hwords₂ hroot₂ path₁ path₂ e₁ e₂ root₁' root₂' hget₁ hget₂ hfits₁ hfits₂
        hreplace₁ hreplace₂ hvalid₁ hvalid₂
      have h₁ : Splice e₁ e₂ path₁ root root₁' := Expr.splice_of_replace? hget₁ hreplace₁
      have h₂ : Splice e₂ e₁ path₂ root₂ root₂' := Expr.splice_of_replace? hget₂ hreplace₂
      have hfits : exchangeFits (min i.settings.maxDepth other.settings.maxDepth) path₁ path₂ e₁ e₂ =
          true := by
        rw [exchangeFits, Bool.and_eq_true, decide_eq_true_eq, decide_eq_true_eq]
        exact ⟨hfits₁, hfits₂⟩
      exact exists_script_recombine hwords hwords₂ hattempts hroot hroot₂ h₁ h₂ hfits hvalid₁ hvalid₂

/-- Some scripts give the parabola a variable for its root, or hoist its root to where it is,
or exchange the whole of it for the variable of another parabola. -/
theorem nothing_legal_out_of_reach_parabola :
    parabola.Addressable ∧ parabola.settings.Open ∧ Reachable parabola ∧
      (∃ script, (parabola.generate 5 6).LeadsTo script squared) ∧
      (∃ script, parabola.mutateSubtree.LeadsTo script
        ⟨parabola.scoredWith (.var 0), true, []⟩) ∧
      (∃ script log, parabola.mutateHoist.LeadsTo script
        ⟨parabola.scoredWith squared, true, log⟩) ∧
      ∃ script, (parabola.recombine parabola).LeadsTo script
        ⟨parabola.scoredWith (.var 0),
          parabola.scoredWith (.unary ⟨"square", fun x => x * x⟩ squared), []⟩ := by
  have hwords : parabola.Addressable :=
    ⟨by decide, by decide, by decide, by decide, by decide +kernel⟩
  have hopen : parabola.settings.Open :=
    ⟨⟨by decide, by decide⟩, ⟨by decide, by decide⟩, ⟨by decide, by decide⟩⟩
  have hvariable : ∀ symbol ∈ (Expr.var 0).symbols, parabola.Offers symbol := by
    intro symbol hs
    rw [List.mem_singleton.1 hs]
    exact parabola.dataset.variableCount_pos
  have hsquared : ∀ symbol ∈ squared.symbols, parabola.Offers symbol := by
    intro symbol hs
    rw [squared, Expr.symbols, List.mem_cons] at hs
    rcases hs with rfl | hs
    · exact List.mem_cons_self
    · exact hvariable symbol hs
  obtain ⟨hgenerate, hedits⟩ := nothing_legal_out_of_reach hwords
  obtain ⟨hsubtree, hhoist, hrecombine⟩ := hedits reachable_parabola squared root_parabola
  refine ⟨hwords, hopen, reachable_parabola, ?_, ?_, ?_, ?_⟩
  · exact hgenerate hopen 5 6 squared (by decide) hsquared
  · exact hsubtree hopen [] (by decide) (.var 0) (.var 0) (by decide) hvariable rfl
      (by decide +kernel)
  · exact hhoist [] squared rfl rfl
  · exact hrecombine parabola squared hwords root_parabola [] [.left] squared (.var 0) _ _ rfl rfl
      (by decide) (by decide) rfl rfl (by decide +kernel) (by decide +kernel)

end Individual

end SymbolicRegression
