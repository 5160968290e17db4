/-
# What a mutation can do

A mutation either leaves the individual as it was or commits to one edit of a
kind that is fixed by the way of mutation.  In between it may have tried and
undone any number of edits; none of them leaves a trace in the individual.

* `Individual.LegalEdit` : the edits that a way of mutation may commit to;
* `Individual.tryAt_eq` : one try commits, or restores the individual;
* `Individual.possible_searchEdit` : what a search for an edit can end in;
* `Individual.possible_applyMutation` : **what a mutation can do**;
* `Individual.wellPosed_applyMutation` : every question of a mutation makes sense.
-/
import SymbolicRegression.Individual.Mutation
import SymbolicRegression.Proofs.Edit
import SymbolicRegression.Proofs.Generation

namespace SymbolicRegression

namespace Individual

variable {i : Individual} {path : Path} {old new root root' : Expr} {o : Outcome}

/-! ## Legal edits -/

/-- The edits that a way of mutation may commit to: `new` in the place of `old` at `path`. -/
inductive LegalEdit (i : Individual) : Mutation → Path → Expr → Expr → Prop
  /-- A random expression that has as many levels as there are left. -/
  | subtree {path : Path} {old new : Expr}
      (h : (i.randomExpr (i.settings.maxDepth - path.length)).Possible new) :
      LegalEdit i .subtree path old new
  /-- Another binary operator of the set over the same operands. -/
  | pointBinary {path : Path} {op op' : BinaryOperator} {left right : Expr}
      (h : op' ∈ i.primitives.operators.binary) :
      LegalEdit i .point path (.binary op left right) (.binary op' left right)
  /-- Another unary operator of the set over the same operand. -/
  | pointUnary {path : Path} {op op' : UnaryOperator} {operand : Expr}
      (h : op' ∈ i.primitives.operators.unary) :
      LegalEdit i .point path (.unary op operand) (.unary op' operand)
  /-- The same operator over its operands the other way round. -/
  | permutation {path : Path} {op : BinaryOperator} {left right : Expr} :
      LegalEdit i .permutation path (.binary op left right) (.binary op right left)
  /-- An operator position of the whole expression in the place of the whole. -/
  | hoist {path : Path} {root new : Expr} (h : root.get? path = some new)
      (hleaf : new.isLeaf = false) : LegalEdit i .hoist [] root new
  /-- The mean of its values in the place of an operator position. -/
  | collapse {path : Path} {old : Expr} (hleaf : old.isLeaf = false) :
      LegalEdit i .collapse path old (.const (collapsedValue i.dataset old))

namespace LegalEdit

variable {way : Mutation}

/-- A legal edit puts in nothing higher than what it displaces, or than the levels
that are left at its position. -/
theorem height_le (h : i.LegalEdit way path old new) :
    new.height ≤ max old.height (i.settings.maxDepth - path.length + 1) := by
  cases h with
  | subtree h =>
    have := (possible_randomExpr h).1
    omega
  | pointBinary _ => exact Nat.le_max_left _ _
  | pointUnary _ => exact Nat.le_max_left _ _
  | permutation =>
    simp only [Expr.height]
    omega
  | hoist h _ =>
    obtain ⟨_, hsplice⟩ := Expr.exists_splice_of_get? h new
    have := hsplice.length_add_height_le
    omega
  | collapse _ =>
    have := old.height_pos
    simp only [Expr.height]
    omega

/-- A legal edit brings in no variables but those of the dataset. -/
theorem var_mem_or_lt (h : i.LegalEdit way path old new) {index : Nat}
    (hv : Symbol.var index ∈ new.symbols) :
    Symbol.var index ∈ old.symbols ∨ index < i.dataset.variableCount := by
  cases h with
  | subtree h => exact .inr ((possible_randomExpr h).2 _ hv)
  | pointBinary _ =>
    rw [Expr.var_mem_symbols_binary] at hv ⊢
    exact .inl hv
  | pointUnary _ =>
    rw [Expr.var_mem_symbols_unary] at hv ⊢
    exact .inl hv
  | permutation =>
    rw [Expr.var_mem_symbols_binary] at hv ⊢
    exact .inl hv.symm
  | hoist h _ =>
    obtain ⟨_, hsplice⟩ := Expr.exists_splice_of_get? h new
    exact .inl (hsplice.mem_symbols_of_mem_old hv)
  | collapse _ => simp [Expr.symbols] at hv

end LegalEdit

/-! ## Searching for an edit -/

section Search

variable {propose : Individual → Path → Draw (Option Expr)} {exhausted : Nat → Event}

/-- **One try commits, or restores the individual.**  Where an edit does not give a
finite fitness, the expression and the fitness are again what they were. -/
theorem tryAt_eq (hroot : i.root = some root) (h : Splice old new path root root')
    (log : List Event) :
    tryAt i.fitness ⟨i, log⟩ path new =
      let scoring := ({ i with root := some root' } : Individual).rescore
      if scoring.individual.isValid then .inl ⟨scoring.individual, true, log ++ scoring.log⟩
      else .inr ⟨i, log ++ scoring.log⟩ := by
  rw [tryAt, exchange?_of_splice hroot h]
  simp only
  split
  · rfl
  · rw [put_of_splice_of_rescore hroot h]

/-- What a search for an edit can end in: it leaves the individual as it was, or it
commits to a proposed edit, and then the fitness is finite. -/
inductive Settled (i : Individual) (propose : Individual → Path → Draw (Option Expr)) :
    Outcome → Prop
  | kept (log : List Event) : Settled i propose (i.unchanged log)
  | committed {o : Outcome} {path : Path} {old new : Expr} (hold : i.get? path = some old)
      (hnew : (propose i path).Possible (some new)) (hedit : i.EditedTo path old new o.individual)
      (hchanged : o.changed = true) (hvalid : o.individual.isValid = true) :
      Settled i propose o

/-- What one try can end in, when the individual is as it was at the beginning:
the end of the search, or the individual as it was at the beginning. -/
theorem possible_tryEdit {log : List Event} {outcome : Outcome ⊕ Progress}
    (h : (tryEdit propose i.locations i.fitness ⟨i, log⟩).Possible outcome) :
    (∃ o, outcome = .inl o ∧ Settled i propose o) ∨ ∃ log', outcome = .inr ⟨i, log'⟩ := by
  obtain ⟨path?, hpath, h⟩ := Draw.possible_bind.1 h
  rcases Draw.possible_element?.1 hpath with ⟨-, rfl⟩ | ⟨path, hmem, rfl⟩
  · obtain rfl := Draw.possible_pure.1 h
    exact .inl ⟨_, rfl, .kept log⟩
  · obtain ⟨new?, hnew, h⟩ := Draw.possible_bind.1 h
    cases new? with
    | none =>
      obtain rfl := Draw.possible_pure.1 h
      exact .inr ⟨log, rfl⟩
    | some new =>
      obtain rfl := Draw.possible_pure.1 h
      -- the position comes from the individual as it still is, so the edit can be made
      obtain ⟨root, old, hroot, hold⟩ := exists_get?_of_mem_locations hmem
      obtain ⟨root', hsplice⟩ := Expr.exists_splice_of_get? hold new
      rw [tryAt_eq hroot hsplice]
      simp only
      split
      · rename_i hvalid
        have hget : i.get? path = some old := (get?_eq hroot).trans hold
        have hedit : i.EditedTo path old new _ := ⟨root, root', hroot, hsplice, rfl⟩
        exact .inl ⟨_, rfl, .committed hget hnew hedit rfl hvalid⟩
      · exact .inr ⟨_, rfl⟩

/-- **What a search for an edit can end in**, however many edits were tried and undone. -/
theorem possible_searchEdit (h : (i.searchEdit propose exhausted).Possible o) :
    Settled i propose o := by
  -- the invariant: between two tries the individual is as it was before the first
  refine Draw.possible_retry (fun _ (t : Progress) => t.individual = i) ?_ ?_ ?_ rfl h
  · rintro tries ⟨_, log⟩ result rfl hstep
    rcases possible_tryEdit hstep with ⟨o, hr, ho⟩ | ⟨log', hr⟩
    · cases hr
      exact ho
    · cases hr
  · rintro tries ⟨_, log⟩ t' rfl hstep
    rcases possible_tryEdit hstep with ⟨o, hr, -⟩ | ⟨log', hr⟩
    · cases hr
    · cases hr
      rfl
  · rintro ⟨_, log⟩ rfl
    exact .kept _

/-- A search asks sensible questions if its proposals do. -/
theorem wellPosed_searchEdit (h : ∀ path, (propose i path).WellPosed) :
    (i.searchEdit propose exhausted).WellPosed := by
  refine Draw.wellPosed_retry (fun (t : Progress) => t.individual = i) ?_ ?_ rfl _
  · rintro ⟨_, log⟩ rfl
    refine Draw.wellPosed_bind.2 ⟨Draw.wellPosed_element? _, fun path? _ => ?_⟩
    cases path? with
    | none => trivial
    | some path =>
      refine Draw.wellPosed_bind.2 ⟨h path, fun new? _ => ?_⟩
      cases new? with
      | none => trivial
      | some new => trivial
  · rintro ⟨_, log⟩ t' rfl hstep
    rcases possible_tryEdit hstep with ⟨o, hr, -⟩ | ⟨log', hr⟩
    · cases hr
    · cases hr
      rfl

end Search

/-! ## What each way can do -/

/-- What can become of an individual in a mutation of a given way.  It is left as it
was, or only rescored, or edited; a way that searches for its edit ends in a
finite fitness. -/
inductive Mutated (i : Individual) (way : Mutation) : Outcome → Prop
  | kept (log : List Event) : Mutated i way (i.unchanged log)
  | rescored (log : List Event) : Mutated i way (i.rescore.individual.unchanged log)
  | committed {o : Outcome} {path : Path} {old new : Expr} (hlegal : i.LegalEdit way path old new)
      (hedit : i.EditedTo path old new o.individual) (hchanged : o.changed = true)
      (hvalid : way = .subtree ∨ way = .collapse → o.individual.isValid = true) :
      Mutated i way o

namespace Mutated

variable {way : Mutation}

/-- A mutation neither takes the expression away nor gives one. -/
theorem isSome_root (h : Mutated i way o) : o.individual.root.isSome = i.root.isSome := by
  cases h with
  | kept log => rfl
  | rescored log =>
    show i.rescore.individual.root.isSome = i.root.isSome
    rw [root_rescore]
  | committed _ hedit _ _ => exact hedit.isSome_root

/-- A mutation works on what the individual worked on before. -/
theorem frame (h : Mutated i way o) : o.individual.settings = i.settings ∧
    o.individual.primitives = i.primitives ∧ o.individual.dataset = i.dataset := by
  cases h with
  | kept log => exact ⟨rfl, rfl, rfl⟩
  | rescored log => exact ⟨settings_rescore i, primitives_rescore i, dataset_rescore i⟩
  | committed _ hedit _ _ => exact hedit.frame

/-- **A mutation that changes nothing leaves no trace.**  A rescoring that comes with
it leaves none either, since the fitness was right before. -/
theorem eq_of_not_changed (h : Mutated i way o) (hi : i.Scored) (hchanged : o.changed = false) :
    o.individual = i := by
  cases h with
  | kept log => rfl
  | rescored log => exact scored_iff.1 hi
  | committed _ _ htrue _ =>
    rw [htrue] at hchanged
    cases hchanged

/-- A way that searches for its edit changes an individual to a valid one only. -/
theorem isValid_of_changed (h : Mutated i way o) (hway : way = .subtree ∨ way = .collapse)
    (hchanged : o.changed = true) : o.individual.isValid = true := by
  cases h with
  | kept log => cases hchanged
  | rescored log => cases hchanged
  | committed _ _ _ hvalid => exact hvalid hway

end Mutated

/-- Committing to a legal edit. -/
theorem mutated_commit {way : Mutation} (hroot : i.root = some root)
    (hold : root.get? path = some old) (hlegal : i.LegalEdit way path old new)
    (hway : ¬ (way = .subtree ∨ way = .collapse)) : Mutated i way (i.commit path new) :=
  .committed hlegal (.of_put hroot hold new) rfl fun h => absurd h hway

/-- A subtree mutation ends as a mutation may. -/
theorem mutated_subtree (h : i.mutateSubtree.Possible o) : Mutated i .subtree o := by
  cases possible_searchEdit h with
  | kept log => exact .kept log
  | committed hold hnew hedit hchanged hvalid =>
    obtain ⟨fresh, hfresh, hnew⟩ := Draw.possible_bind.1 hnew
    cases Draw.possible_pure.1 hnew
    exact .committed (.subtree hfresh) hedit hchanged fun _ => hvalid

/-- A collapse ends as a mutation may. -/
theorem mutated_collapse (h : i.mutateCollapse.Possible o) : Mutated i .collapse o := by
  cases possible_searchEdit h with
  | kept log => exact .kept log
  | committed hold hnew hedit hchanged hvalid =>
    have hnew := Draw.possible_pure.1 hnew
    rw [collapsed?, hold] at hnew
    simp only at hnew
    split at hnew
    · cases hnew
    · rename_i hleaf
      cases hnew
      exact .committed (.collapse (Bool.eq_false_iff.2 hleaf)) hedit hchanged fun _ => hvalid

/-- A point mutation ends as a mutation may. -/
theorem mutated_point (h : i.mutatePoint.Possible o) : Mutated i .point o := by
  obtain ⟨path?, hpath, h⟩ := Draw.possible_bind.1 h
  rcases Draw.possible_element?.1 hpath with ⟨-, rfl⟩ | ⟨path, hmem, rfl⟩
  · cases Draw.possible_pure.1 h
    exact .kept []
  · obtain ⟨root, old, hroot, hold⟩ := exists_get?_of_mem_locations hmem
    simp only [(get?_eq hroot).trans hold] at h
    cases old with
    | binary op left right =>
      obtain ⟨op', hop, h⟩ := Draw.possible_bind.1 h
      cases Draw.possible_pure.1 h
      exact mutated_commit hroot hold (.pointBinary (Draw.possible_member.1 hop)) (by decide)
    | unary op operand =>
      obtain ⟨op', hop, h⟩ := Draw.possible_bind.1 h
      cases Draw.possible_pure.1 h
      exact mutated_commit hroot hold (.pointUnary (Draw.possible_member.1 hop)) (by decide)
    | var index =>
      cases Draw.possible_pure.1 h
      exact .rescored _
    | const value =>
      cases Draw.possible_pure.1 h
      exact .rescored _

/-- A permutation ends as a mutation may. -/
theorem mutated_permutation (h : i.mutatePermutation.Possible o) : Mutated i .permutation o := by
  obtain ⟨path?, hpath, h⟩ := Draw.possible_bind.1 h
  rcases Draw.possible_element?.1 hpath with ⟨-, rfl⟩ | ⟨path, hmem, rfl⟩
  · cases Draw.possible_pure.1 h
    exact .kept []
  · obtain ⟨hmem, hbinary⟩ := List.mem_filter.1 hmem
    obtain ⟨root, old, hroot, hold⟩ := exists_get?_of_mem_locations hmem
    have hget := (get?_eq hroot).trans hold
    rw [isBinaryAt, hget] at hbinary
    simp only [hget] at h
    -- the positions were filtered, so only one kind of expression can stand there
    cases old with
    | binary op left right =>
      cases Draw.possible_pure.1 h
      exact mutated_commit hroot hold .permutation (by decide)
    | unary op operand => cases hbinary
    | var index => cases hbinary
    | const value => cases hbinary

/-- What one try to hoist can end in. -/
theorem possible_tryHoist {outcome : Outcome ⊕ Unit} (h : i.tryHoist.Possible outcome) :
    outcome = .inr () ∨ ∃ o, outcome = .inl o ∧ Mutated i .hoist o := by
  obtain ⟨path?, hpath, h⟩ := Draw.possible_bind.1 h
  rcases Draw.possible_element?.1 hpath with ⟨-, rfl⟩ | ⟨path, hmem, rfl⟩
  · cases Draw.possible_pure.1 h
    exact .inr ⟨_, rfl, .kept []⟩
  · obtain ⟨root, new, hroot, hnew⟩ := exists_get?_of_mem_locations hmem
    simp only [(get?_eq hroot).trans hnew] at h
    split at h
    · cases Draw.possible_pure.1 h
      exact .inl rfl
    · rename_i hleaf
      cases Draw.possible_pure.1 h
      -- hoisting is an edit at the root
      have hlegal : i.LegalEdit .hoist [] root new := .hoist hnew (Bool.eq_false_iff.2 hleaf)
      have hedit : i.EditedTo [] root new _ := ⟨root, new, hroot, .here, rfl⟩
      exact .inr ⟨_, rfl, .committed hlegal hedit rfl fun h => absurd h (by decide)⟩

/-- A hoist ends as a mutation may. -/
theorem mutated_hoist (h : i.mutateHoist.Possible o) : Mutated i .hoist o := by
  refine Draw.possible_retry (fun _ _ => True) ?_ (fun _ _ _ _ _ => trivial) ?_ trivial h
  · rintro tries t result - hstep
    rcases possible_tryHoist hstep with hr | ⟨o, hr, ho⟩
    · cases hr
    · cases hr
      exact ho
  · rintro t -
    exact .kept _

/-- **What a mutation can do.**  Whatever the answers to its questions, it leaves the
individual as it was, or rescores it, or commits to one legal edit. -/
theorem possible_applyMutation {way : Mutation} (h : (i.applyMutation way).Possible o) :
    Mutated i way o := by
  cases way with
  | subtree => exact mutated_subtree h
  | point => exact mutated_point h
  | permutation => exact mutated_permutation h
  | hoist => exact mutated_hoist h
  | collapse => exact mutated_collapse h

/-! ## The questions of a mutation -/

theorem wellPosed_mutatePoint : i.mutatePoint.WellPosed := by
  refine Draw.wellPosed_bind.2 ⟨Draw.wellPosed_element? _, fun path? _ => ?_⟩
  cases path? with
  | none => trivial
  | some path =>
    simp only
    split
    · exact Draw.wellPosed_bind.2 ⟨Draw.wellPosed_member _, fun _ _ => trivial⟩
    · exact Draw.wellPosed_bind.2 ⟨Draw.wellPosed_member _, fun _ _ => trivial⟩
    · trivial

theorem wellPosed_mutatePermutation : i.mutatePermutation.WellPosed := by
  refine Draw.wellPosed_bind.2 ⟨Draw.wellPosed_element? _, fun path? _ => ?_⟩
  cases path? with
  | none => trivial
  | some path =>
    simp only
    split
    · trivial
    · trivial

theorem wellPosed_tryHoist : i.tryHoist.WellPosed := by
  refine Draw.wellPosed_bind.2 ⟨Draw.wellPosed_element? _, fun path? _ => ?_⟩
  cases path? with
  | none => trivial
  | some path =>
    simp only
    split
    · trivial
    · split
      · trivial
      · trivial

/-- With valid settings a mutation asks only sensible questions. -/
theorem wellPosed_applyMutation (h : i.settings.Valid) (way : Mutation) :
    (i.applyMutation way).WellPosed := by
  cases way with
  | subtree =>
    refine wellPosed_searchEdit fun path => ?_
    exact Draw.wellPosed_bind.2 ⟨wellPosed_randomExpr h _, fun _ _ => trivial⟩
  | point => exact wellPosed_mutatePoint
  | permutation => exact wellPosed_mutatePermutation
  | hoist =>
    exact Draw.wellPosed_retry (fun _ => True) (fun _ _ => wellPosed_tryHoist)
      (fun _ _ _ _ => trivial) trivial _
  | collapse => exact wellPosed_searchEdit fun path => trivial

/-- With valid settings the choice of a way is a sensible question. -/
theorem wellPosed_randomMutation (h : i.settings.Valid) : i.randomMutation.WellPosed := by
  refine Draw.wellPosed_bind.2 ⟨Settings.wellPosed_flip h.subtree, fun isSubtree _ => ?_⟩
  cases isSubtree with
  | true => trivial
  | false => exact Draw.wellPosed_member _

/-- With valid settings a mutation in a random way asks only sensible questions. -/
theorem wellPosed_mutate (h : i.settings.Valid) : i.mutate.WellPosed := by
  refine Draw.wellPosed_bind.2 ⟨wellPosed_randomMutation h, fun way _ => ?_⟩
  exact Draw.wellPosed_bind.2 ⟨wellPosed_applyMutation h way, fun _ _ => trivial⟩

/-- A mutation in a random way is one in some way. -/
theorem possible_mutate {result : Mutation × Outcome} (h : i.mutate.Possible result) :
    Mutated i result.1 result.2 := by
  obtain ⟨way, -, h⟩ := Draw.possible_bind.1 h
  obtain ⟨o, ho, h⟩ := Draw.possible_bind.1 h
  cases Draw.possible_pure.1 h
  exact possible_applyMutation ho

end Individual

end SymbolicRegression
