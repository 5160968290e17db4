/-
# Restoring what a search has found

An individual of a search over one set of primitives has only operators of that set
and finite constants: random expressions choose from the primitives, collapsing
puts in a finite number, and all other edits move around what is there.  So its
record leads back to its expression, and scoring that anew gives the fitness that
it has.

* `Palette.Built` : how palettes come about; their constants are finite;
* `Individual.Evolved` : the individuals of a search over one set of primitives;
* `Individual.IsOver` : the invariant, that the expression is one over the operators;
* `Individual.Evolved.isOver` : it holds of every individual of the search;
* `Individual.ofRecord_toRecord` : sound individuals with it can be restored.

Main statement:

* `Individual.restore_evolved` : **every individual of a search can be restored.**
-/
import SymbolicRegression.Proofs.Reachable
import SymbolicRegression.Proofs.Resolution

namespace SymbolicRegression

/-! ## Palettes -/

/-- How palettes come about: from given values, or as the well-known constants with
two random ones.  Of the random ones it is assumed that they are finite. -/
inductive Palette.Built : Palette → Prop
  | ofValues {values : List Float} {p : Palette} (h : Palette.ofValues values = .ok p) : Built p
  | notable {σ : Type} [WordSource σ] (s : σ)
      (h : AllFinite ((Palette.notable.run s).1.values.drop 4)) : Built (Palette.notable.run s).1

/-- The constants of a palette are finite. -/
theorem Palette.Built.allFinite {p : Palette} (h : p.Built) : AllFinite p.values := by
  cases h with
  | ofValues h => exact (allFinite_of_ofValues h).2
  | notable s h =>
    have hknown : AllFinite [circleConstant, growthConstant, rootTwo, Float.sqrt 3.0] := by
      decide +kernel
    have hvalues : (Palette.notable.run s).1.values =
        [circleConstant, growthConstant, rootTwo, Float.sqrt 3.0]
          ++ (Palette.notable.run s).1.values.drop 4 := rfl
    intro v hv
    rw [hvalues, List.mem_append] at hv
    rcases hv with hv | hv
    · exact hknown v hv
    · exact h v hv

namespace Individual

/-! ## Searches over one set of primitives -/

/-- The individuals of a search in which all have the same primitives.  A root that is
given from outside must be an expression over the operators; settings and datasets
may differ. -/
inductive Evolved (primitives : PrimitiveSet) : Individual → Prop
  | create {dataset : Dataset} {settings : Settings} {i : Individual}
      (h : create primitives dataset settings = .ok i) : Evolved primitives i
  | populate {i : Individual} (hi : Evolved primitives i) {σ : Type} [WordSource σ] (s : σ) :
      Evolved primitives (i.populate.run s).1.individual
  | setRoot {i : Individual} (hi : Evolved primitives i) {root : Expr}
      (hroot : root.IsOver primitives.operators) : Evolved primitives (i.tryRoot root)
  | applyMutation {i : Individual} (hi : Evolved primitives i) (way : Mutation) {σ : Type}
      [WordSource σ] (s : σ) : Evolved primitives ((i.applyMutation way).run s).1.individual
  | mutate {i : Individual} (hi : Evolved primitives i) {σ : Type} [WordSource σ] (s : σ) :
      Evolved primitives (i.mutate.run s).1.2.individual
  | first {a b : Individual} (ha : Evolved primitives a) (hb : Evolved primitives b) {σ : Type}
      [WordSource σ] (s : σ) : Evolved primitives ((a.recombine b).run s).1.first
  | second {a b : Individual} (ha : Evolved primitives a) (hb : Evolved primitives b) {σ : Type}
      [WordSource σ] (s : σ) : Evolved primitives ((a.recombine b).run s).1.second

/-- An individual of a search over one set of primitives is one of a search. -/
theorem Evolved.reachable {primitives : PrimitiveSet} {i : Individual}
    (h : Evolved primitives i) : Reachable i := by
  induction h with
  | create h => exact .create h
  | populate _ s ih => exact ih.step (.populate s)
  | setRoot _ _ ih => exact ih.step (.setRoot _)
  | applyMutation _ way s ih => exact ih.step (.applyMutation way s)
  | mutate _ s ih => exact ih.step (.mutate s)
  | first _ _ s iha ihb => exact iha.first ihb s
  | second _ _ s iha ihb => exact iha.second ihb s

/-! ## The invariant -/

/-- **The invariant.**  The individual has the given primitives, and its expression, if it
has one, is one over their operators. -/
structure IsOver (primitives : PrimitiveSet) (i : Individual) : Prop where
  primitives_eq : i.primitives = primitives
  root_isOver : ∀ root, i.root = some root → root.IsOver primitives.operators

variable {primitives : PrimitiveSet} {i j : Individual} {path : Path} {old new root : Expr}

/-- Whatever the random search may choose is covered by the operators. -/
theorem covers_of_offers (hfinite : AllFinite i.primitives.constants.values) {symbol : Symbol}
    (h : i.Offers symbol) : i.primitives.operators.Covers symbol := by
  cases symbol with
  | binary op => exact h
  | unary op => exact h
  | var index => trivial
  | const value => exact hfinite value h

/-- The value that takes the place of a collapsed expression is finite. -/
theorem isFinite_collapsedValue (d : Dataset) (e : Expr) : (collapsedValue d e).isFinite = true := by
  unfold collapsedValue
  split
  · decide
  · split
    · assumption
    · decide

/-- **A legal edit brings in nothing new** that the operators do not cover. -/
theorem LegalEdit.mem_or_covers {way : Mutation} (h : i.LegalEdit way path old new)
    (hfinite : AllFinite i.primitives.constants.values) {symbol : Symbol}
    (hs : symbol ∈ new.symbols) :
    symbol ∈ old.symbols ∨ i.primitives.operators.Covers symbol := by
  cases h with
  | subtree h => exact .inr (covers_of_offers hfinite ((possible_randomExpr h).2 symbol hs))
  | pointBinary hop =>
    rw [Expr.symbols, List.mem_cons] at hs
    rcases hs with rfl | hs
    · exact .inr hop
    · exact .inl (List.mem_cons_of_mem _ hs)
  | pointUnary hop =>
    rw [Expr.symbols, List.mem_cons] at hs
    rcases hs with rfl | hs
    · exact .inr hop
    · exact .inl (List.mem_cons_of_mem _ hs)
  | permutation =>
    rw [Expr.symbols, List.mem_cons, List.mem_append] at hs
    rw [Expr.symbols, List.mem_cons, List.mem_append]
    exact .inl (hs.imp_right Or.symm)
  | hoist h _ =>
    obtain ⟨_, hsplice⟩ := Expr.exists_splice_of_get? h new
    exact .inl (hsplice.mem_symbols_of_mem_old hs)
  | collapse _ =>
    rw [List.mem_singleton.1 hs]
    exact .inr (isFinite_collapsedValue _ _)

namespace IsOver

/-- Giving an individual an expression over the operators, and scoring it. -/
theorem of_isOver (h : i.IsOver primitives) (hroot : root.IsOver primitives.operators) :
    ({ i with root := some root } : Individual).rescore.individual.IsOver primitives where
  primitives_eq := by
    rw [primitives_rescore]
    exact h.primitives_eq
  root_isOver := by
    intro found hfound
    rw [root_rescore] at hfound
    cases hfound
    exact hroot

/-- An edit keeps the invariant if all that it brings in is covered. -/
theorem of_edit (h : i.IsOver primitives) (hedit : i.EditedTo path old new j)
    (hnew : ∀ symbol ∈ new.symbols, symbol ∈ old.symbols ∨ primitives.operators.Covers symbol) :
    j.IsOver primitives := by
  obtain ⟨root, root', hroot, hsplice, rfl⟩ := hedit
  refine h.of_isOver ?_
  intro symbol hs
  rcases hsplice.mem_symbols_or hs with hs | hs
  · exact h.root_isOver root hroot symbol hs
  · rcases hnew symbol hs with hs | hcovers
    · exact h.root_isOver root hroot symbol (hsplice.mem_symbols_of_mem_old hs)
    · exact hcovers

/-- A mutation keeps the invariant. -/
theorem of_mutated {way : Mutation} {o : Outcome} (h : i.IsOver primitives)
    (hfinite : AllFinite primitives.constants.values) (hmutated : Mutated i way o) :
    o.individual.IsOver primitives := by
  have hprimitives : i.primitives = primitives := h.primitives_eq
  cases hmutated with
  | kept log => exact h
  | rescored log =>
    refine ⟨(primitives_rescore i).trans hprimitives, ?_⟩
    intro root hroot
    exact h.root_isOver root ((root_rescore i).symm.trans hroot)
  | committed hlegal hedit _ _ =>
    subst hprimitives
    exact h.of_edit hedit fun symbol hs => hlegal.mem_or_covers hfinite hs

/-- A recombination keeps the invariant on both sides: what one side receives comes from
the other, which is over the same operators. -/
theorem of_recombined {a b : Individual} {o : Offspring} (ha : a.IsOver primitives)
    (hb : b.IsOver primitives) (h : Recombined a b o) :
    o.first.IsOver primitives ∧ o.second.IsOver primitives := by
  cases h with
  | kept log => exact ⟨ha, hb⟩
  | exchanged hfirst hsecond _ _ _ =>
    obtain ⟨root₁, _, hroot₁, -, h₁⟩ := hfirst.exists_splice
    obtain ⟨root₂, _, hroot₂, -, h₂⟩ := hsecond.exists_splice
    constructor
    · refine ha.of_edit hfirst fun symbol hs => .inr ?_
      exact hb.root_isOver root₂ hroot₂ symbol (h₂.mem_symbols_of_mem_old hs)
    · refine hb.of_edit hsecond fun symbol hs => .inr ?_
      exact ha.root_isOver root₁ hroot₁ symbol (h₁.mem_symbols_of_mem_old hs)

/-- Trying to give an individual an expression over the operators keeps the invariant,
whether or not the expression is refused. -/
theorem tryRoot (h : i.IsOver primitives) (hroot : root.IsOver primitives.operators) :
    (i.tryRoot root).IsOver primitives := by
  unfold Individual.tryRoot
  split
  · rename_i scoring hset
    obtain ⟨-, rfl⟩ := setRoot_eq_ok_iff.1 hset
    exact h.of_isOver hroot
  · exact h

end IsOver

/-- **The invariant holds of every individual of the search.** -/
theorem Evolved.isOver (hfinite : AllFinite primitives.constants.values)
    (h : Evolved primitives i) : i.IsOver primitives := by
  induction h with
  | create h =>
    obtain ⟨-, rfl⟩ := create_eq_ok_iff.1 h
    exact ⟨rfl, fun root hroot => by cases hroot⟩
  | @populate i hi _ _ s ih =>
    obtain ⟨root, hroot, hrun⟩ := possible_populate_run hi.reachable.sound.valid s
    rw [hrun]
    refine ih.of_isOver ?_
    intro symbol hs
    have hprimitives : i.primitives = primitives := ih.primitives_eq
    subst hprimitives
    exact covers_of_offers hfinite ((possible_randomExpr hroot).2 symbol hs)
  | setRoot _ hroot ih => exact ih.tryRoot hroot
  | applyMutation hi way s ih =>
    exact ih.of_mutated hfinite (mutated_run hi.reachable.sound.valid way s)
  | mutate hi s ih =>
    exact ih.of_mutated hfinite (mutated_mutate_run hi.reachable.sound.valid s)
  | first _ _ s iha ihb => exact (iha.of_recombined ihb (recombined_run _ _ s)).1
  | second _ _ s iha ihb => exact (iha.of_recombined ihb (recombined_run _ _ s)).2

/-! ## Restoring -/

/-- **What a record restores.**  Where the settings are valid, and the expression, if there is
one, is over the operators and within the limits, both are restored, and the fitness is
found anew. -/
theorem ofRecord_eq_ok {dataset : Dataset} {settings : Settings} {root : Option Expr}
    (fitness : Option Float) (hvalid : settings.Valid)
    (hover : ∀ e, root = some e → e.IsOver primitives.operators)
    (hadmits : ∀ e, root = some e →
      (Individual.mk root invalidFitness settings primitives dataset).Admits e) :
    ∃ restored, ofRecord primitives dataset
        ⟨currentVersion, settings, root.map Expr.toRecord, fitness⟩ = .ok restored ∧
      restored.individual =
        (Individual.mk root invalidFitness settings primitives dataset).rescore.individual := by
  rw [ofRecord, if_neg (· rfl), create_eq_ok hvalid]
  cases root with
  | none => exact ⟨_, rfl, rfl⟩
  | some e =>
    have hresolve : e.toRecord.resolve primitives.operators = .ok e :=
      Expr.resolve_toRecord (hover e rfl)
    -- the limits do not turn on the expression that is there already
    have hset : (Individual.mk none invalidFitness settings primitives dataset).setRoot e =
        .ok (Individual.mk (some e) invalidFitness settings primitives dataset).rescore :=
      setRoot_eq_ok_iff.2 ⟨⟨(hadmits e rfl).depth_le, (hadmits e rfl).var_lt⟩, rfl⟩
    simp only [Option.map_some, recordedRoot, hresolve, withRecorded, hset]
    exact ⟨_, rfl, rfl⟩

/-- **A sound individual over its operators can be restored** from its record, with the
same expression, the same settings and the same fitness. -/
theorem ofRecord_toRecord (h : i.Sound) (hover : i.IsOver i.primitives) :
    ∃ restored, ofRecord i.primitives i.dataset i.toRecord = .ok restored ∧
      restored.individual = i := by
  have hadmits (e : Expr) (he : i.root = some e) :
      (Individual.mk i.root invalidFitness i.settings i.primitives i.dataset).Admits e :=
    ⟨(h.admits e he).depth_le, (h.admits e he).var_lt⟩
  obtain ⟨restored, hload, hrestored⟩ :=
    ofRecord_eq_ok i.toRecord.fitness h.valid hover.root_isOver hadmits
  refine ⟨restored, hload, hrestored.trans ?_⟩
  exact (congrArg Scoring.individual (rescore_with_fitness i invalidFitness)).trans h.rescore_eq

/-! ## A sample -/

theorem built_unguarded : unguarded.constants.Built := by
  have hvalues : Palette.ofValues [1e200] = .ok unguarded.constants := by
    have hfind : [(1e200 : Float)].find? (fun v => !v.isFinite) = none := by decide +kernel
    rw [Palette.ofValues, dif_neg (by simp), hfind]
    rfl
  exact .ofValues hvalues

theorem evolved_parabola : Evolved unguarded parabola := by
  have hcreate : Individual.create unguarded twoSquares {} =
      .ok ⟨none, invalidFitness, {}, unguarded, twoSquares⟩ :=
    create_eq_ok valid_default
  have hsquared : squared.IsOver unguarded.operators := by
    refine Expr.isOver_unary.2 ⟨?_, Expr.isOver_var⟩
    exact List.mem_singleton.2 rfl
  exact (Evolved.create hcreate).setRoot hsquared

/-! ## Main statement -/

/-- **Every individual of a search can be restored.**  Over one set of primitives,
whatever was created, filled at random, given an expression over the operators, mutated or
recombined, its record leads back to it: to the same expression, the same settings and
the same fitness. -/
theorem restore_evolved (hbuilt : primitives.constants.Built) (h : Evolved primitives i) :
    ∃ restored, ofRecord i.primitives i.dataset i.toRecord = .ok restored ∧
      restored.individual = i := by
  have hover : i.IsOver primitives := h.isOver hbuilt.allFinite
  have hown : i.IsOver i.primitives := by
    rw [hover.primitives_eq]
    exact hover
  exact ofRecord_toRecord h.reachable.sound hown

theorem restore_evolved_parabola :
    unguarded.constants.Built ∧ Evolved unguarded parabola ∧
      ∃ restored, ofRecord parabola.primitives parabola.dataset parabola.toRecord = .ok restored ∧
        restored.individual = parabola :=
  ⟨built_unguarded, evolved_parabola, restore_evolved built_unguarded evolved_parabola⟩

end Individual

end SymbolicRegression
