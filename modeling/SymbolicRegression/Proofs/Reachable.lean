/-
# Reachable individuals

The individuals that a search can come across: created or restored, and from then
on whatever the operations on them and on one another leave.  Two things hold of
all of them.  Their expressions stay within the limits of the settings and the
dataset, and their fitness is that of their expression.

* `Individual.Step` : what one operation may leave of an individual;
* `Individual.Reachable` : the individuals of a search;
* `Individual.Sound` : the invariant;
* `Individual.Step.sound`, `Individual.Sound.of_recombined` : every operation keeps it;
* `Individual.passed_of_ofRecord` : what a record has passed once it is restored;
* `Individual.Reachable.sound` : it holds of every reachable individual;
* `Individual.SearchRun` : runs of mutations that insist on a finite fitness.

Main statements:

* `Individual.root_within_limits` : depth, variables, and who has an expression;
* `Individual.fitness_never_stale` : rescoring a reachable individual changes nothing;
* `Individual.mutation_atomic` : no change reported, no change made.
-/
import SymbolicRegression.Proofs.Mutation
import SymbolicRegression.Proofs.Recombination
import SymbolicRegression.Record.Basic

namespace SymbolicRegression

namespace Individual

/-! ## Operations -/

/-- The individual after an attempt to give it another expression.  Where the
expression is refused it is left as it is. -/
def tryRoot (i : Individual) (root : Expr) : Individual :=
  match i.setRoot root with
  | .ok scoring => scoring.individual
  | .error _ => i

/-- `Step i j` : one operation on `i` alone leaves `j`, whatever the random words. -/
inductive Step (i : Individual) : Individual → Prop
  | copy : Step i i
  | populate {σ : Type} [WordSource σ] (s : σ) : Step i (i.populate.run s).1.individual
  | setRoot (root : Expr) : Step i (i.tryRoot root)
  | rescore : Step i i.rescore.individual
  | applyMutation (way : Mutation) {σ : Type} [WordSource σ] (s : σ) :
      Step i ((i.applyMutation way).run s).1.individual
  | mutate {σ : Type} [WordSource σ] (s : σ) : Step i (i.mutate.run s).1.2.individual

/-- The individuals that a search can come across, over any settings, primitives
and datasets and with any random words. -/
inductive Reachable : Individual → Prop
  | create {primitives : PrimitiveSet} {dataset : Dataset} {settings : Settings} {i : Individual}
      (h : create primitives dataset settings = .ok i) : Reachable i
  | restore {primitives : PrimitiveSet} {dataset : Dataset} {record : Record}
      {restored : Restored} (h : ofRecord primitives dataset record = .ok restored) :
      Reachable restored.individual
  | step {i j : Individual} (hi : Reachable i) (h : Step i j) : Reachable j
  | first {a b : Individual} (ha : Reachable a) (hb : Reachable b) {σ : Type} [WordSource σ]
      (s : σ) : Reachable ((a.recombine b).run s).1.first
  | second {a b : Individual} (ha : Reachable a) (hb : Reachable b) {σ : Type} [WordSource σ]
      (s : σ) : Reachable ((a.recombine b).run s).1.second

/-! ## The invariant -/

/-- Whether an expression is within the limits of an individual. -/
structure Admits (i : Individual) (root : Expr) : Prop where
  depth_le : root.depth ≤ i.settings.maxDepth
  var_lt : ∀ index, Symbol.var index ∈ root.symbols → index < i.dataset.variableCount

/-- **The invariant of a search.**  The settings are valid, the expression is within
the limits, and the fitness is that of the expression. -/
structure Sound (i : Individual) : Prop where
  valid : i.settings.Valid
  admits : ∀ root, i.root = some root → i.Admits root
  scored : i.Scored

variable {i j : Individual} {root : Expr}

/-- An expression is refused exactly when it is not within the limits. -/
theorem rootFault?_eq_none_iff : i.rootFault? root = none ↔ i.Admits root := by
  have hvars : (∀ top, root.maxVar? = some top → top < i.dataset.variableCount) ↔
      ∀ index, Symbol.var index ∈ root.symbols → index < i.dataset.variableCount :=
    Expr.maxVar?_lt_iff
  unfold rootFault?
  constructor
  · intro h
    split at h
    · cases h
    · rename_i hdepth
      refine ⟨Nat.le_of_not_lt hdepth, hvars.1 fun top htop => ?_⟩
      simp only [htop] at h
      split at h
      · assumption
      · cases h
  · rintro ⟨hdepth, hvar⟩
    rw [if_neg (Nat.not_lt.2 hdepth)]
    split
    · rfl
    · rename_i top htop
      rw [if_pos (hvars.2 hvar top htop)]

/-! ## What keeps the invariant -/

namespace Sound

/-- Giving an individual an expression within its limits, and scoring it. -/
theorem of_admits (hv : i.settings.Valid) (h : i.Admits root) :
    ({ i with root := some root } : Individual).rescore.individual.Sound where
  valid := by rwa [settings_rescore]
  admits := by
    intro found hfound
    rw [root_rescore] at hfound
    cases hfound
    refine ⟨?_, ?_⟩
    · rw [settings_rescore]
      exact h.depth_le
    · rw [dataset_rescore]
      exact h.var_lt
  scored := scored_rescore _

/-- A sound individual is left as it is by rescoring. -/
theorem rescore_eq (h : i.Sound) : i.rescore.individual = i := scored_iff.1 h.scored

/-- A legal edit keeps the invariant. -/
theorem of_edit {way : Mutation} {path : Path} {old new : Expr} (h : i.Sound)
    (hlegal : i.LegalEdit way path old new) (hedit : i.EditedTo path old new j) : j.Sound := by
  obtain ⟨root, root', hroot, hsplice, rfl⟩ := hedit
  have hadmits := h.admits root hroot
  refine of_admits h.valid ⟨?_, fun index hv => ?_⟩
  · -- the position lies within the limit, and so do the levels that come in there
    have hdepth := hadmits.depth_le
    have hpath := hsplice.length_add_height_le
    have hheight := hsplice.height_le
    have hnew := hlegal.height_le
    have hold := old.height_pos
    rw [Expr.depth] at hdepth ⊢
    omega
  · rcases hsplice.mem_symbols_or hv with hv | hv
    · exact hadmits.var_lt index hv
    · rcases hlegal.var_mem_or_lt hv with hv | hlt
      · exact hadmits.var_lt index (hsplice.mem_symbols_of_mem_old hv)
      · exact hlt

/-- A mutation keeps the invariant. -/
theorem of_mutated {way : Mutation} {o : Outcome} (h : i.Sound) (ho : Mutated i way o) :
    o.individual.Sound := by
  cases ho with
  | kept log => exact h
  | rescored log =>
    show i.rescore.individual.Sound
    rwa [h.rescore_eq]
  | committed hlegal hedit _ _ => exact h.of_edit hlegal hedit

/-- The donor of an exchange fits the depth limit of the receiver.  Its variables are
not compared with those of the receiver's dataset; that they are among them follows
from the finite fitness, since an expression with other variables has no values. -/
theorem of_exchange {path : Path} {old new : Expr} {limit : Nat} (h : i.Sound)
    (hedit : i.EditedTo path old new j) (hlimit : limit ≤ i.settings.maxDepth)
    (hfits : path.length + new.height ≤ limit) (hvalid : j.isValid = true) : j.Sound := by
  obtain ⟨root, root', hroot, hroot', hsplice⟩ := hedit.exists_splice
  have hdepth := (h.admits root hroot).depth_le
  have hvars : ∀ index, Symbol.var index ∈ root'.symbols → index < i.dataset.variableCount :=
    fun _ hv => hedit.var_lt hvalid hroot' hv
  obtain ⟨_, _, -, -, rfl⟩ := hedit
  rw [root_rescore] at hroot'
  cases hroot'
  refine of_admits h.valid ⟨?_, hvars⟩
  have hheight := hsplice.height_le
  rw [Expr.depth] at hdepth ⊢
  omega

/-- A recombination keeps the invariant on both sides. -/
theorem of_recombined {a b : Individual} {o : Offspring} (ha : a.Sound) (hb : b.Sound)
    (h : Recombined a b o) : o.first.Sound ∧ o.second.Sound := by
  cases h with
  | kept log => exact ⟨ha, hb⟩
  | exchanged hfirst hsecond hfits hvalid₁ hvalid₂ =>
    rw [exchangeFits, Bool.and_eq_true, decide_eq_true_eq, decide_eq_true_eq] at hfits
    exact ⟨ha.of_exchange hfirst (Nat.min_le_left _ _) hfits.1 hvalid₁,
      hb.of_exchange hsecond (Nat.min_le_right _ _) hfits.2 hvalid₂⟩

end Sound

/-- An individual is created exactly when the settings are valid, and without an expression. -/
theorem create_eq_ok_iff {primitives : PrimitiveSet} {dataset : Dataset} {settings : Settings} :
    create primitives dataset settings = .ok i ↔
      settings.Valid ∧ i = ⟨none, invalidFitness, settings, primitives, dataset⟩ := by
  rw [← Settings.fault?_eq_none_iff]
  unfold create
  cases hfault : settings.fault? with
  | some fault => simp
  | none => simp [eq_comm]

/-- Valid settings are accepted. -/
theorem create_eq_ok {primitives : PrimitiveSet} {dataset : Dataset} {settings : Settings}
    (h : settings.Valid) : create primitives dataset settings =
      .ok { root := none, fitness := invalidFitness, settings, primitives, dataset } :=
  create_eq_ok_iff.2 ⟨h, rfl⟩

/-- A created individual is sound: it has no expression yet, and the fitness says so. -/
theorem sound_create {primitives : PrimitiveSet} {dataset : Dataset} {settings : Settings}
    (h : create primitives dataset settings = .ok i) : i.Sound := by
  obtain ⟨hvalid, rfl⟩ := create_eq_ok_iff.1 h
  refine ⟨hvalid, ?_, .inr ⟨?_, rfl⟩⟩
  · rintro root ⟨⟩
  · rintro ⟨predictions, error, root, ⟨⟩, -⟩

/-- An expression that is not refused becomes the root, and is scored. -/
theorem setRoot_eq_ok_iff {scoring : Scoring} :
    i.setRoot root = .ok scoring ↔
      i.Admits root ∧ scoring = ({ i with root := some root } : Individual).rescore := by
  rw [← rootFault?_eq_none_iff]
  unfold setRoot
  cases hfault : i.rootFault? root with
  | some fault => simp
  | none => simp [eq_comm]

/-- An individual that is given an expression within its limits takes it. -/
theorem tryRoot_eq (h : i.Admits root) :
    i.tryRoot root = ({ i with root := some root } : Individual).rescore.individual := by
  rw [tryRoot, setRoot_eq_ok_iff.2 ⟨h, rfl⟩]

/-- A sound individual stays sound when it is given an expression. -/
theorem Sound.of_setRoot {scoring : Scoring} (hi : i.Sound) (h : i.setRoot root = .ok scoring) :
    scoring.individual.Sound := by
  obtain ⟨hadmits, rfl⟩ := setRoot_eq_ok_iff.1 h
  exact .of_admits hi.valid hadmits

/-- Trying to give a sound individual an expression leaves it sound, whether or not
the expression is refused. -/
theorem Sound.tryRoot (hi : i.Sound) (root : Expr) : (i.tryRoot root).Sound := by
  unfold Individual.tryRoot
  split
  · rename_i scoring h
    exact hi.of_setRoot h
  · exact hi

/-- **What a record has passed once it is restored.**  Its settings are valid, its names and
constants lead to an expression, that expression is within the limits, and what is
restored is it with the score that it has on the dataset. -/
theorem passed_of_ofRecord {primitives : PrimitiveSet} {dataset : Dataset} {record : Record}
    {restored : Restored} (h : ofRecord primitives dataset record = .ok restored) :
    record.settings.Valid ∧ ∃ root, recordedRoot primitives.operators record.root = .ok root ∧
      (∀ e, root = some e →
        (Individual.mk root invalidFitness record.settings primitives dataset).Admits e) ∧
      restored.individual =
        (Individual.mk root invalidFitness record.settings primitives dataset).rescore.individual := by
  unfold ofRecord at h
  split at h
  · cases h
  split at h
  · cases h
  rename_i root hroot
  split at h
  · cases h
  rename_i i hcreate
  obtain ⟨hvalid, rfl⟩ := create_eq_ok_iff.1 hcreate
  refine ⟨hvalid, root, hroot, ?_⟩
  cases root with
  | none =>
    cases h
    refine ⟨?_, rfl⟩
    rintro e ⟨⟩
  | some e =>
    rw [withRecorded] at h
    split at h
    · cases h
    · rename_i scoring hset
      cases h
      obtain ⟨hadmits, rfl⟩ := setRoot_eq_ok_iff.1 hset
      refine ⟨?_, rfl⟩
      rintro found ⟨⟩
      exact ⟨hadmits.depth_le, hadmits.var_lt⟩

/-- A restored individual is sound: the settings and the expression of the record are
checked like any others. -/
theorem sound_ofRecord {primitives : PrimitiveSet} {dataset : Dataset} {record : Record}
    {restored : Restored} (h : ofRecord primitives dataset record = .ok restored) :
    restored.individual.Sound := by
  obtain ⟨hvalid, root, -, hadmits, hrestored⟩ := passed_of_ofRecord h
  rw [hrestored]
  refine ⟨?_, ?_, scored_rescore _⟩
  · rwa [settings_rescore]
  · intro e he
    rw [root_rescore] at he
    refine ⟨?_, ?_⟩
    · rw [settings_rescore]
      exact (hadmits e he).depth_le
    · rw [dataset_rescore]
      exact (hadmits e he).var_lt

/-! ## Runs -/

/-- A random expression as deep as the settings allow is within the limits. -/
theorem admits_of_possible_generate (h : (i.generate 0 i.settings.maxDepth).Possible root) :
    i.Admits root := by
  obtain ⟨hheight, hsymbols⟩ := possible_randomExpr h
  refine ⟨?_, fun index hv => hsymbols _ hv⟩
  rw [Expr.depth]
  omega

/-- A run of `populate` scores a random expression. -/
theorem possible_populate_run (hv : i.settings.Valid) {σ : Type} [WordSource σ] (s : σ) :
    ∃ root, (i.generate 0 i.settings.maxDepth).Possible root ∧
      (i.populate.run s).1 = ({ i with root := some root } : Individual).rescore := by
  have hrun : i.populate.Possible (i.populate.run s).1 :=
    Draw.possible_run (wellPosed_populate hv) s
  obtain ⟨root, hroot, h⟩ := Draw.possible_bind.1 hrun
  exact ⟨root, hroot, (Draw.possible_pure.1 h).symm⟩

/-- What a run of `populate` ends in. -/
theorem populate_run (hv : i.settings.Valid) {σ : Type} [WordSource σ] (s : σ) :
    ∃ root, i.Admits root ∧
      (i.populate.run s).1 = ({ i with root := some root } : Individual).rescore := by
  obtain ⟨root, hroot, hrun⟩ := possible_populate_run hv s
  exact ⟨root, admits_of_possible_generate hroot, hrun⟩

/-- What a run of a mutation ends in. -/
theorem mutated_run (hv : i.settings.Valid) (way : Mutation) {σ : Type} [WordSource σ] (s : σ) :
    Mutated i way ((i.applyMutation way).run s).1 :=
  possible_applyMutation (Draw.possible_run (wellPosed_applyMutation hv way) s)

/-- What a run of a mutation in a random way ends in. -/
theorem mutated_mutate_run (hv : i.settings.Valid) {σ : Type} [WordSource σ] (s : σ) :
    Mutated i (i.mutate.run s).1.1 (i.mutate.run s).1.2 :=
  possible_mutate (Draw.possible_run (wellPosed_mutate hv) s)

/-- **Every operation keeps the invariant.** -/
theorem Step.sound (hi : i.Sound) (h : Step i j) : j.Sound := by
  cases h with
  | copy => exact hi
  | populate s =>
    obtain ⟨root, hadmits, hrun⟩ := populate_run hi.valid s
    rw [hrun]
    exact .of_admits hi.valid hadmits
  | setRoot root => exact hi.tryRoot root
  | rescore => rwa [hi.rescore_eq]
  | applyMutation way s => exact hi.of_mutated (mutated_run hi.valid way s)
  | mutate s => exact hi.of_mutated (mutated_mutate_run hi.valid s)

/-- **The invariant holds of every reachable individual.** -/
theorem Reachable.sound (h : Reachable i) : i.Sound := by
  induction h with
  | create h => exact sound_create h
  | restore h => exact sound_ofRecord h
  | step _ h ih => exact h.sound ih
  | first _ _ s iha ihb => exact (iha.of_recombined ihb (recombined_run _ _ s)).1
  | second _ _ s iha ihb => exact (iha.of_recombined ihb (recombined_run _ _ s)).2

/-! ## What follows of reachable individuals -/

/-- No operation takes an expression away. -/
theorem Step.isSome_root (hi : i.Sound) (h : Step i j) (hroot : i.root.isSome = true) :
    j.root.isSome = true := by
  cases h with
  | copy => exact hroot
  | populate s =>
    obtain ⟨root, -, hrun⟩ := populate_run hi.valid s
    rw [hrun, root_rescore]
    rfl
  | setRoot root =>
    unfold Individual.tryRoot
    split
    · rename_i scoring h
      obtain ⟨-, rfl⟩ := setRoot_eq_ok_iff.1 h
      rw [root_rescore]
      rfl
    · exact hroot
  | rescore => rwa [root_rescore]
  | applyMutation way s => rwa [(mutated_run hi.valid way s).isSome_root]
  | mutate s => rwa [(mutated_mutate_run hi.valid s).isSome_root]

/-- The fitness of a sound individual is finite exactly when its expression fits. -/
theorem Sound.isValid_iff (hi : i.Sound) :
    i.isValid = true ↔ ∃ predictions error, i.HasFit predictions error := by
  rw [← isValid_rescore_iff, hi.rescore_eq]

/-- Rescoring a sound individual reports predictions exactly when it is valid. -/
theorem Sound.isSome_predictions (hi : i.Sound) : i.rescore.predictions.isSome = i.isValid := by
  rw [Bool.eq_iff_iff, hi.isValid_iff, Option.isSome_iff_exists]
  constructor
  · rintro ⟨predictions, hp⟩
    exact ⟨predictions, predictions_rescore_eq_some_iff.1 hp⟩
  · rintro ⟨predictions, hfit⟩
    exact ⟨predictions, predictions_rescore_eq_some_iff.2 hfit⟩

/-- The predictions that rescoring reports are those of the expression on the dataset. -/
theorem predict_eq_of_predictions_rescore {predictions : List Float}
    (h : i.rescore.predictions = some predictions) : i.predict i.dataset = .ok predictions := by
  obtain ⟨error, root, hroot, hfit⟩ := predictions_rescore_eq_some_iff.1 h
  exact predict_eq_ok_iff.2 ⟨root, hroot, hfit.evaluate_eq, hfit.predictions_finite⟩

/-- A way that searches for its edit keeps a valid individual valid. -/
theorem Sound.isValid_of_mutated {way : Mutation} {o : Outcome} (hi : i.Sound)
    (hway : way = .subtree ∨ way = .collapse) (hvalid : i.isValid = true)
    (h : Mutated i way o) : o.individual.isValid = true := by
  cases hchanged : o.changed with
  | true => exact h.isValid_of_changed hway hchanged
  | false => rwa [h.eq_of_not_changed hi.scored hchanged]

/-- `SearchRun i j` : a run of mutations leads from `i` to `j`, each of which replaces
or collapses a subtree. -/
inductive SearchRun (i : Individual) : Individual → Prop
  | refl : SearchRun i i
  | step {j : Individual} {way : Mutation} (hrun : SearchRun i j)
      (hway : way = .subtree ∨ way = .collapse) {σ : Type} [WordSource σ] (s : σ) :
      SearchRun i ((j.applyMutation way).run s).1.individual

/-- A run from a reachable individual stays among these. -/
theorem SearchRun.reachable (hi : Reachable i) (h : SearchRun i j) : Reachable j := by
  induction h with
  | refl => exact hi
  | step _ _ s ih => exact ih.step (.applyMutation _ s)

/-- **A run that searches for its edits never leaves the valid individuals.** -/
theorem SearchRun.isValid (hi : Reachable i) (h : SearchRun i j) (hvalid : i.isValid = true) :
    j.isValid = true := by
  induction h with
  | refl => exact hvalid
  | step hrun hway s ih =>
    have hj := (hrun.reachable hi).sound
    exact hj.isValid_of_mutated hway ih (mutated_run hj.valid _ s)

/-! ## A sample -/

theorem valid_default : Settings.Valid {} := Settings.fault?_eq_none_iff.1 (by decide)

/-- Whatever expression a new individual is given, the outcome is reachable. -/
theorem reachable_tryRoot {settings : Settings} (h : settings.Valid) (primitives : PrimitiveSet)
    (dataset : Dataset) (root : Expr) :
    Reachable (tryRoot ⟨none, invalidFitness, settings, primitives, dataset⟩ root) :=
  (Reachable.create (create_eq_ok h)).step (.setRoot root)

/-- Operators without guards, so that expressions can overflow. -/
def unguarded : PrimitiveSet where
  operators :=
    { unary := [⟨"square", fun x => x * x⟩]
      binary := [⟨"multiply", fun x y => x * y⟩]
      unary_ne_nil := by simp
      binary_ne_nil := by simp
      names_nodup := by simp }
  constants := ⟨[1e200], by simp⟩

/-- The squares of one and of two. -/
def twoSquares : Dataset where
  features := [[1.0, 2.0]]
  targets := [1.0, 4.0]
  features_ne_nil := by simp
  targets_ne_nil := by simp
  rectangular := by simp
  features_finite := by decide
  targets_finite := by decide

/-- The square of the only variable. -/
def squared : Expr := .unary ⟨"square", fun x => x * x⟩ (.var 0)

/-- An individual over the sample, with that square. -/
def parabola : Individual :=
  Individual.tryRoot ⟨none, invalidFitness, {}, unguarded, twoSquares⟩ squared

theorem reachable_parabola : Reachable parabola :=
  reachable_tryRoot valid_default unguarded twoSquares squared

theorem root_parabola : parabola.root = some squared := by
  have h : parabola = (Individual.mk (some squared) invalidFitness {} unguarded
      twoSquares).rescore.individual := rfl
  rw [h, root_rescore]

theorem isValid_parabola : parabola.isValid = true := by decide +kernel

/-! ## Main statements -/

/-- **Limits.**  The expression of a reachable individual is no deeper than its settings
allow and has only variables of its dataset.  No operation takes an expression away,
and neither a mutation nor a recombination gives one to an individual without. -/
theorem root_within_limits (hi : Reachable i) :
    (∀ root, i.root = some root → root.depth ≤ i.settings.maxDepth ∧
      ∀ index, Symbol.var index ∈ root.symbols → index < i.dataset.variableCount) ∧
    (∀ j, Step i j → i.root.isSome = true → j.root.isSome = true) ∧
    (∀ (way : Mutation) {σ : Type} [WordSource σ] (s : σ),
      ((i.applyMutation way).run s).1.individual.root.isSome = i.root.isSome ∧
      (i.mutate.run s).1.2.individual.root.isSome = i.root.isSome) ∧
    ∀ (other : Individual) {σ : Type} [WordSource σ] (s : σ),
      ((i.recombine other).run s).1.first.root.isSome = i.root.isSome ∧
      ((i.recombine other).run s).1.second.root.isSome = other.root.isSome := by
  have hsound := hi.sound
  refine ⟨?_, ?_, ?_, ?_⟩
  · intro root hroot
    have hadmits := hsound.admits root hroot
    exact ⟨hadmits.depth_le, hadmits.var_lt⟩
  · intro j hstep hroot
    exact hstep.isSome_root hsound hroot
  · intro way σ _ s
    have hmutated := mutated_run hsound.valid way s
    have hrandom := mutated_mutate_run hsound.valid s
    exact ⟨hmutated.isSome_root, hrandom.isSome_root⟩
  · intro other σ _ s
    exact (recombined_run i other s).isSome_root

theorem root_within_limits_parabola :
    Reachable parabola ∧ squared.depth ≤ parabola.settings.maxDepth ∧
      ∀ index, Symbol.var index ∈ squared.symbols → index < parabola.dataset.variableCount :=
  ⟨reachable_parabola, (root_within_limits reachable_parabola).1 squared root_parabola⟩

/-- **The fitness is never stale.**  The fitness of a reachable individual is that of
its expression on its dataset, so rescoring leaves the individual as it is; and it
reports predictions exactly when the individual is valid, those of the expression. -/
theorem fitness_never_stale (hi : Reachable i) :
    i.Scored ∧ i.rescore.individual = i ∧ i.rescore.predictions.isSome = i.isValid ∧
      ∀ predictions, i.rescore.predictions = some predictions →
        i.predict i.dataset = .ok predictions := by
  have hsound := hi.sound
  refine ⟨hsound.scored, hsound.rescore_eq, hsound.isSome_predictions, ?_⟩
  intro predictions hpredictions
  exact predict_eq_of_predictions_rescore hpredictions

theorem fitness_never_stale_parabola :
    Reachable parabola ∧ parabola.rescore.individual = parabola ∧
      parabola.rescore.predictions.isSome = true := by
  obtain ⟨-, hrescore, hpredictions, -⟩ := fitness_never_stale reachable_parabola
  rw [isValid_parabola] at hpredictions
  exact ⟨reachable_parabola, hrescore, hpredictions⟩

/-- **Mutations are atomic.**  A mutation of a reachable individual that reports no
change leaves it exactly as it was.  Replacing or collapsing a subtree, when it
reports a change, ends in a finite fitness, and a run of nothing but these keeps a
valid individual valid, whatever the operators. -/
theorem mutation_atomic (hi : Reachable i) :
    (∀ (way : Mutation) {σ : Type} [WordSource σ] (s : σ),
      let o := ((i.applyMutation way).run s).1
      (o.changed = false → o.individual = i) ∧
      (way = .subtree ∨ way = .collapse → o.changed = true → o.individual.isValid = true)) ∧
    (i.isValid = true → ∀ j, SearchRun i j → j.isValid = true) := by
  have hsound := hi.sound
  refine ⟨?_, ?_⟩
  · intro way σ _ s o
    have hmutated : Mutated i way o := mutated_run hsound.valid way s
    exact ⟨hmutated.eq_of_not_changed hsound.scored, hmutated.isValid_of_changed⟩
  · intro hvalid j hrun
    exact hrun.isValid hi hvalid

theorem mutation_atomic_parabola :
    Reachable parabola ∧ parabola.isValid = true ∧ ∀ j, SearchRun parabola j → j.isValid = true :=
  ⟨reachable_parabola, isValid_parabola, (mutation_atomic reachable_parabola).2 isValid_parabola⟩

end Individual

end SymbolicRegression
