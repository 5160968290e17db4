/-
# Edits of an individual

An edit puts one expression in the place of another and brings the fitness up to
date.  Every mutation and every recombination that commits to something commits
to an edit, so what an edit keeps is proved here once.

* `Individual.EditedTo` : one individual is an edit of another;
* `Individual.exchange?_eq_some_iff` : exchanges in an individual are splices of its expression;
* `Individual.put_of_splice_of_rescore` : putting back what was displaced restores the
  expression;
* `Individual.EditedTo.scored`, `Individual.EditedTo.frame` : what every edit does and does
  not touch.
-/
import SymbolicRegression.Proofs.Scoring
import SymbolicRegression.Proofs.Splice

namespace SymbolicRegression

namespace Individual

variable {i j : Individual} {path : Path} {old new root root' : Expr}

/-! ## Positions -/

/-- At every listed position stands an expression. -/
theorem exists_get?_of_mem_locations (h : path ∈ i.locations) :
    ∃ root e, i.root = some root ∧ root.get? path = some e := by
  unfold locations at h
  cases hroot : i.root with
  | none =>
    rw [hroot] at h
    cases h
  | some root =>
    rw [hroot] at h
    obtain ⟨e, he⟩ := Option.isSome_iff_exists.1 (Expr.mem_locations_iff.1 h)
    exact ⟨root, e, rfl, he⟩

/-- A path to a part of the expression is one of the positions. -/
theorem mem_locations (hroot : i.root = some root) (hget : root.get? path = some old) :
    path ∈ i.locations := by
  rw [locations, hroot]
  refine Expr.mem_locations_iff.2 ?_
  rw [hget]
  rfl

theorem get?_eq (hroot : i.root = some root) : i.get? path = root.get? path := by
  rw [get?, hroot]
  rfl

/-! ## Exchanges -/

/-- An exchange in an individual is a splice of its expression. -/
theorem exchange?_eq_some_iff (hroot : i.root = some root) :
    i.exchange? path new = some (old, j) ↔
      ∃ root', Splice old new path root root' ∧ j = { i with root := some root' } := by
  rw [exchange?, hroot, Option.bind_some, Option.map_eq_some_iff]
  constructor
  · rintro ⟨⟨old', root'⟩, hx, h⟩
    cases h
    exact ⟨root', Expr.exchange?_eq_some_iff.1 hx, rfl⟩
  · rintro ⟨root', hsplice, rfl⟩
    exact ⟨(old, root'), Expr.exchange?_of_splice hsplice, rfl⟩

/-- An exchange takes out the part at the path and leaves the spliced expression. -/
theorem exchange?_of_splice (hroot : i.root = some root) (h : Splice old new path root root') :
    i.exchange? path new = some (old, { i with root := some root' }) :=
  (exchange?_eq_some_iff hroot).2 ⟨root', h, rfl⟩

/-- Putting a part at the path leaves the spliced expression. -/
theorem put_of_splice (hroot : i.root = some root) (h : Splice old new path root root') :
    i.put path new = { i with root := some root' } := by
  rw [put, exchange?_of_splice hroot h]

/-- **Taking an exchange back.**  Whatever became of the fitness meanwhile, putting
the displaced expression back restores the expression of the individual. -/
theorem put_of_splice_of_rescore (hroot : i.root = some root)
    (h : Splice old new path root root') :
    ({ i with root := some root' } : Individual).rescore.individual.put path old =
      { i with fitness := ({ i with root := some root' } : Individual).rescore.individual.fitness } := by
  rw [put_of_splice (root_rescore _) h.symm, rescore_individual, ← hroot]

/-! ## Edits -/

/-- `i.EditedTo path old new j` : where `i` has `old`, at `path`, `j` has `new`, and the
fitness of `j` is that of its expression. -/
def EditedTo (i : Individual) (path : Path) (old new : Expr) (j : Individual) : Prop :=
  ∃ root root', i.root = some root ∧ Splice old new path root root' ∧
    j = ({ i with root := some root' } : Individual).rescore.individual

namespace EditedTo

/-- Putting `new` at a position and rescoring is an edit. -/
theorem of_put (hroot : i.root = some root) (he : root.get? path = some old) (new : Expr) :
    i.EditedTo path old new (i.put path new).rescore.individual := by
  obtain ⟨root', h⟩ := Expr.exists_splice_of_get? he new
  exact ⟨root, root', hroot, h, by rw [put_of_splice hroot h]⟩

/-- An edited individual works on what it worked on before. -/
theorem frame (h : i.EditedTo path old new j) :
    j.settings = i.settings ∧ j.primitives = i.primitives ∧ j.dataset = i.dataset := by
  obtain ⟨root, root', -, -, rfl⟩ := h
  exact ⟨settings_rescore _, primitives_rescore _, dataset_rescore _⟩

/-- An edited individual has the right fitness. -/
theorem scored (h : i.EditedTo path old new j) : j.Scored := by
  obtain ⟨root, root', -, -, rfl⟩ := h
  exact scored_rescore _

/-- The expressions before and after an edit. -/
theorem exists_splice (h : i.EditedTo path old new j) :
    ∃ root root', i.root = some root ∧ j.root = some root' ∧ Splice old new path root root' := by
  obtain ⟨root, root', hroot, hsplice, rfl⟩ := h
  exact ⟨root, root', hroot, root_rescore _, hsplice⟩

/-- An edit is made where there is an expression, and leaves one. -/
theorem isSome_root (h : i.EditedTo path old new j) : j.root.isSome = i.root.isSome := by
  obtain ⟨root, root', hroot, hroot', -⟩ := h.exists_splice
  rw [hroot, hroot']
  rfl

/-- The expression of a valid edit has only variables of the dataset. -/
theorem var_lt (h : i.EditedTo path old new j) (hvalid : j.isValid = true)
    (hroot' : j.root = some root') {index : Nat} (hv : Symbol.var index ∈ root'.symbols) :
    index < i.dataset.variableCount := by
  obtain ⟨root, edited, -, -, rfl⟩ := h
  obtain ⟨predictions, error, found, hfound, hfit⟩ := isValid_rescore_iff.1 hvalid
  rw [root_rescore, hfound] at hroot'
  cases hroot'
  exact hfit.var_lt hv

end EditedTo

end Individual

end SymbolicRegression
