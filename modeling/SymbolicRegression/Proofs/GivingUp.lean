/-
# Giving up

A search for an edit, a hoist and a recombination give up when their attempts are used up,
and report it.  What they draw and what they try is held against the report here.

* `ReportsGivingUp` : one line tells of giving up, and no line of anything else;
* `Individual.HitsLeaf` : a draw that comes upon a leaf;
* `Individual.SearchReport`, `Individual.HoistReport`, `Individual.SwapReport` : what an
  operation reports of its attempts.

Main statement:

* `Individual.giving_up_is_reported` : **whoever gives up says so, once, and only after all
  attempts are used up.**
-/
import SymbolicRegression.Proofs.Reachable
import SymbolicRegression.Proofs.Transcript

namespace SymbolicRegression

/-! ## Reports -/

/-- The events of a log that tell of a step that came to nothing. -/
def debugLines (log : List Event) : List Event := log.filter fun event => event.level = .debug

/-- The events of a log that belong to the normal course. -/
def traceLines (log : List Event) : List Event := log.filter fun event => event.level = .trace

/-- Debug lines of a log that goes on. -/
theorem debugLines_append (log more : List Event) :
    debugLines (log ++ more) = debugLines log ++ debugLines more := List.filter_append log more

/-- Trace lines of a log that goes on. -/
theorem traceLines_append (log more : List Event) :
    traceLines (log ++ more) = traceLines log ++ traceLines more := List.filter_append log more

/-- The normal course tells of nothing that came to nothing. -/
theorem Uneventful.debugLines_eq {log : List Event} (h : Uneventful log) : debugLines log = [] := by
  refine List.filter_eq_nil_iff.2 fun event hevent => ?_
  rw [h event hevent]
  decide

/-- The normal course consists of its own lines. -/
theorem Uneventful.traceLines_eq {log : List Event} (h : Uneventful log) :
    traceLines log = log :=
  List.filter_eq_self.2 fun event hevent => decide_eq_true (h event hevent)

/-- A last line that is not of the normal course stands alone. -/
theorem Uneventful.debugLines_append_singleton {log : List Event} (h : Uneventful log)
    {line : Event} (hline : line.level = .debug) : debugLines (log ++ [line]) = [line] := by
  have hlast : debugLines [line] = [line] := List.filter_eq_self.2 fun event hevent => by
    rw [List.mem_singleton.1 hevent, hline]
    rfl
  rw [debugLines_append, h.debugLines_eq, hlast]
  rfl

/-- A last line that is not of the normal course adds nothing to it. -/
theorem Uneventful.traceLines_append_singleton {log : List Event} (h : Uneventful log)
    {line : Event} (hline : line.level = .debug) : traceLines (log ++ [line]) = log := by
  have hlast : traceLines [line] = [] := List.filter_eq_nil_iff.2 fun event hevent => by
    rw [List.mem_singleton.1 hevent, hline]
    decide
  rw [traceLines_append, h.traceLines_eq, hlast, List.append_nil]

/-- `line` is reported, once and nothing else, exactly if the operation gives up. -/
structure ReportsGivingUp (gaveUp : Prop) (line : Event) (log : List Event) : Prop where
  gaveUp_iff : gaveUp ↔ debugLines log = [line]
  silent_iff : ¬ gaveUp ↔ debugLines log = []

/-- An operation that gives up and says so reports truly. -/
theorem ReportsGivingUp.of_gaveUp {gaveUp : Prop} {line : Event} {log : List Event} (h : gaveUp)
    (hlog : debugLines log = [line]) : ReportsGivingUp gaveUp line log := by
  refine ⟨⟨fun _ => hlog, fun _ => h⟩, ⟨fun hnot => absurd h hnot, fun hnil => ?_⟩⟩
  rw [hlog] at hnil
  cases hnil

/-- An operation that does not give up and is silent reports truly. -/
theorem ReportsGivingUp.of_not_gaveUp {gaveUp : Prop} {line : Event} {log : List Event}
    (h : ¬ gaveUp) (hlog : debugLines log = []) : ReportsGivingUp gaveUp line log := by
  refine ⟨⟨fun hgave => absurd hgave h, fun hline => ?_⟩, ⟨fun _ => hlog, fun _ => h⟩⟩
  rw [hlog] at hline
  cases hline

namespace Individual

variable {i a b : Individual} {o : Outcome}

/-! ## What is reported -/

section Report

variable {propose : Individual → Path → Draw (Option Expr)} {exhausted : Nat → Event}
  {attempt : EditAttempt} {attempts : List EditAttempt} {answers : List Draw.Answer}

/-- An expression has at least the position of its root. -/
theorem locations_eq_nil_iff : i.locations = [] ↔ i.root = none := by
  cases hroot : i.root with
  | none => simp only [locations, hroot]
  | some root =>
    have hmem : [] ∈ i.locations := mem_locations hroot (Expr.get?_nil root)
    simp only [reduceCtorEq, iff_false]
    intro hnil
    rw [hnil] at hmem
    cases hmem

/-- What a search that drew some positions reports of its attempts: that it gives up, once,
exactly if it does, which is after all attempts; and one rejection for each expression that was
scored, but for the one that it settles for.  The attempts are at the positions drawn. -/
structure SearchReport (i : Individual) (propose : Individual → Path → Draw (Option Expr))
    (line : Event) (drawn : List Draw.Answer) (result : Outcome × List EditAttempt) : Prop where
  reports : ReportsGivingUp (result.1.changed = false) line result.1.log
  places : List.Forall₂ (DrawnFrom i.locations) drawn result.2
  tried : ∀ attempt ∈ result.2, i.Tried propose attempt
  length_le : result.2.length ≤ i.settings.attempts
  gaveUp : result.1.changed = false → result.2.length = i.settings.attempts ∧
    List.Forall₂ i.Rejects (scoredIn result.2) (traceLines result.1.log)
  found : result.1.changed = true → ∃ rejected accepted,
    scoredIn result.2 = rejected ++ [accepted] ∧ result.1.individual = i.scoredWith accepted ∧
    (i.scoredWith accepted).isValid = true ∧
    List.Forall₂ i.Rejects rejected (traceLines result.1.log) ∧
    (traceLines result.1.log).length < i.settings.attempts

/-- **However a search ends, it reports its attempts.** -/
theorem Searched.report (h : i.Searched propose exhausted o attempts)
    (hplaces : List.Forall₂ (DrawnFrom i.locations) answers attempts) (hsome : i.root ≠ none)
    (hlevel : ∀ n, (exhausted n).level = .debug) :
    i.SearchReport propose (exhausted i.settings.attempts) answers (o, attempts) := by
  cases h with
  | nowhere hnil => exact absurd (locations_eq_nil_iff.1 hnil) hsome
  | @gaveUp events _ hlength hsearching =>
    have hevents : Uneventful events := uneventful_of_rejects hsearching.rejected
    have hdebug := hevents.debugLines_append_singleton (hlevel i.settings.attempts)
    have htrace := hevents.traceLines_append_singleton (hlevel i.settings.attempts)
    refine
      { reports := .of_gaveUp rfl hdebug
        places := hplaces
        tried := hsearching.tried
        length_le := Nat.le_of_eq hlength
        gaveUp := fun _ => ⟨hlength, ?_⟩
        found := fun hchanged => nomatch hchanged }
    show List.Forall₂ i.Rejects _ (traceLines (events ++ [exhausted i.settings.attempts]))
    rw [htrace]
    exact hsearching.rejected
  | @found events rejected path e hlength hsearching htried hvalid =>
    have hevents : Uneventful events := uneventful_of_rejects hsearching.rejected
    have htrace : traceLines events = events := hevents.traceLines_eq
    -- as many rejections as expressions were rejected, and no more than attempts were made
    have hlog : (scoredIn rejected).length = events.length := hsearching.rejected.length_eq
    have hscored : (scoredIn rejected).length ≤ rejected.length := length_scoredIn_le
    refine
      { reports := .of_not_gaveUp Bool.noConfusion hevents.debugLines_eq
        places := hplaces
        tried := List.forall_mem_append.2 ⟨hsearching.tried, List.forall_mem_singleton.2 htried⟩
        length_le := ?_
        gaveUp := fun hchanged => nomatch hchanged
        found := fun _ =>
          ⟨scoredIn rejected, e, scoredIn_append_singleton, rfl, hvalid, ?_, ?_⟩ }
    · rw [List.length_append, List.length_singleton]
      omega
    · show List.Forall₂ i.Rejects _ (traceLines events)
      rw [htrace]
      exact hsearching.rejected
    · show (traceLines events).length < i.settings.attempts
      rw [htrace]
      omega

/-- Without an expression a search ends at once. -/
theorem Searched.eq_of_root_eq_none (h : i.Searched propose exhausted o attempts)
    (hpos : 0 < i.settings.attempts) (hnone : i.root = none) :
    (o, attempts) = (i.unchanged [], []) := by
  have hplace := not_mem_locations (locations_eq_nil_iff.2 hnone)
  cases h with
  | nowhere _ => rfl
  | gaveUp hlength hsearching =>
    obtain ⟨attempt, hattempt⟩ := List.exists_mem_of_length_pos (hlength ▸ hpos)
    exact absurd (hsearching.tried attempt hattempt).mem_locations (hplace _)
  | found _ _ htried _ => exact absurd htried.mem_locations (hplace _)

/-- There always is a fresh subtree, so each attempt to replace one comes to a scoring. -/
theorem isSome_scored_of_tried (h : i.Tried freshSubtree attempt) :
    attempt.scored.isSome = true := by
  cases h with
  | passed _ hnone =>
    obtain ⟨fresh, -, hnone⟩ := Draw.possible_bind.1 hnone
    cases Draw.possible_pure.1 hnone
  | scored _ _ _ _ => rfl

/-- Replacing a subtree is given up only after as many scorings as there are attempts. -/
theorem SearchReport.length_scoredIn_eq {line : Event} {result : Outcome × List EditAttempt}
    (h : i.SearchReport freshSubtree line answers result) (hchanged : result.1.changed = false) :
    (scoredIn result.2).length = i.settings.attempts := by
  have hscored : (scoredIn result.2).length = result.2.length :=
    length_scoredIn fun attempt hattempt =>
      isSome_scored_of_tried (h.tried attempt hattempt)
  exact hscored.trans (h.gaveUp hchanged).1

/-- The answer chooses a position of the individual, and a leaf stands there. -/
def HitsLeaf (i : Individual) (answer : Draw.Answer) : Prop :=
  ∃ k path leaf, answer = .position k ∧ i.locations[k]? = some path ∧ i.get? path = some leaf ∧
    leaf.isLeaf = true

/-- If all attempts came upon leaves, all positions that were drawn for them did. -/
theorem hitsLeaf_of_places (hplaces : List.Forall₂ (DrawnFrom i.locations) answers attempts)
    (hleaves : ∀ attempt ∈ attempts, i.HitLeaf attempt) :
    ∀ answer ∈ answers, i.HitsLeaf answer := by
  induction hplaces with
  | nil =>
    intro answer hanswer
    cases hanswer
  | cons hfirst _ ih =>
    obtain ⟨hleaf, hrest⟩ := List.forall_mem_cons.1 hleaves
    refine List.forall_mem_cons.2 ⟨?_, ih hrest⟩
    obtain ⟨k, rfl, hpath⟩ := hfirst
    obtain ⟨leaf, hget, hleaf⟩ := hleaf.isLeaf
    exact ⟨k, _, leaf, rfl, hpath, hget, hleaf⟩

/-- What a hoist that was given some answers reports: that it gives up, once, exactly if it
does, which is after one draw more than attempts, each of a leaf, and without any scoring. -/
structure HoistReport (i : Individual) (answers : List Draw.Answer)
    (result : Outcome × List EditAttempt) : Prop where
  reports : ReportsGivingUp (result.1.changed = false) .hoistExhausted result.1.log
  places : List.Forall₂ (DrawnFrom i.locations) answers result.2
  drawn : result.1.changed = false →
    answers.length = i.settings.attempts + 1 ∧ ∀ answer ∈ answers, i.HitsLeaf answer
  gaveUp : result.1.changed = false → result.2.length = i.settings.attempts + 1 ∧
    ∀ attempt ∈ result.2, i.HitLeaf attempt

/-- **However a hoist ends, it reports its attempts.** -/
theorem Hoisted.report (h : i.Hoisted o attempts)
    (hplaces : List.Forall₂ (DrawnFrom i.locations) answers attempts) (hsome : i.root ≠ none) :
    i.HoistReport answers (o, attempts) := by
  cases h with
  | nowhere hnil => exact absurd (locations_eq_nil_iff.1 hnil) hsome
  | gaveUp hlength hleaves =>
    exact
      { reports := .of_gaveUp rfl rfl
        places := hplaces
        drawn := fun _ => ⟨hplaces.length_eq.trans hlength, hitsLeaf_of_places hplaces hleaves⟩
        gaveUp := fun _ => ⟨hlength, hleaves⟩ }
  | found hleaves hget hoperator =>
    exact
      { reports := .of_not_gaveUp Bool.noConfusion (uneventful_rescore _).debugLines_eq
        places := hplaces
        drawn := fun hchanged => nomatch hchanged
        gaveUp := fun hchanged => nomatch hchanged }

/-- Without an expression a hoist ends at once. -/
theorem Hoisted.eq_of_root_eq_none (h : i.Hoisted o attempts) (hnone : i.root = none) :
    (o, attempts) = (i.unchanged [], []) := by
  cases h with
  | nowhere _ => rfl
  | gaveUp hlength hleaves =>
    have hpos : 0 < attempts.length := hlength ▸ Nat.succ_pos i.settings.attempts
    obtain ⟨attempt, hattempt⟩ := List.exists_mem_of_length_pos hpos
    exact absurd (hleaves attempt hattempt).mem_locations
      (not_mem_locations (locations_eq_nil_iff.2 hnone) _)
  | found _ hget _ =>
    rw [get?, hnone] at hget
    cases hget

/-- What a recombination that was given some answers reports: that it gives up, once, exactly
if none of the pairs that it scored suits, which is after all attempts; then both individuals
come out as they were, and otherwise with the last pair that was scored.  The answers choose
the places of the attempts.  Of every pair it reports the rejection by the individuals that it
does not suit, once each, and no more. -/
structure SwapReport (a b : Individual) (answers : List Draw.Answer)
    (result : Offspring × List SwapAttempt) : Prop where
  reports : ReportsGivingUp (FallsBack a b result.2) (.recombinationExhausted a.settings.attempts)
    result.1.log
  places : DrawnInPairs a.locations b.locations answers result.2
  tried : ∀ attempt ∈ result.2, SwapTried a b attempt
  rejected : RejectsMisfits a b (scoredIn result.2) (traceLines result.1.log)
  length_le : result.2.length ≤ a.settings.attempts
  fellBack : FallsBack a b result.2 → result.1.first = a ∧ result.1.second = b ∧
    result.2.length = a.settings.attempts ∧ answers.length = 2 * a.settings.attempts
  found : ¬ FallsBack a b result.2 → ∃ rejected accepted,
    scoredIn result.2 = rejected ++ [accepted] ∧ (∀ pair ∈ rejected, ¬ Suits a b pair) ∧
    Suits a b accepted ∧ result.1.first = a.scoredWith accepted.1 ∧
    result.1.second = b.scoredWith accepted.2

/-- **However a recombination ends, it reports its attempts.** -/
theorem Swapped.report {o : Offspring} {attempts : List SwapAttempt}
    (h : Swapped a b o attempts)
    (hplaces : DrawnInPairs a.locations b.locations answers attempts) (ha : a.root ≠ none)
    (hb : b.root ≠ none) : SwapReport a b answers (o, attempts) := by
  cases h with
  | nowhere hnil =>
    rcases hnil with hnil | hnil
    · exact absurd (locations_eq_nil_iff.1 hnil) ha
    · exact absurd (locations_eq_nil_iff.1 hnil) hb
  | @fellBack t _ hlength hswapping =>
    have hfalls : FallsBack a b attempts := hswapping.fallsBack
    have hlog : Uneventful t.log := hswapping.rejected.uneventful
    have hlevel : (Event.recombinationExhausted a.settings.attempts).level = .debug := rfl
    have htrace := hlog.traceLines_append_singleton hlevel
    refine
      { reports := .of_gaveUp hfalls (hlog.debugLines_append_singleton hlevel)
        places := hplaces
        tried := hswapping.tried
        rejected := ?_
        length_le := Nat.le_of_eq hlength
        fellBack := fun _ => ⟨rfl, rfl, hlength, hlength ▸ hplaces.length_eq⟩
        found := fun hnot => absurd hfalls hnot }
    show RejectsMisfits a b _ (traceLines (t.log ++ [_]))
    rw [htrace]
    exact hswapping.rejected
  | @found t rejected place pair hlength hswapping htried hsuits =>
    have hlog : Uneventful t.log := hswapping.rejected.uneventful
    have hscored : scoredIn (rejected ++ [⟨place, some pair⟩]) = scoredIn rejected ++ [pair] :=
      scoredIn_append_singleton
    have hnot : ¬ FallsBack a b (rejected ++ [⟨place, some pair⟩]) := by
      intro hfalls
      refine hfalls pair ?_ hsuits
      rw [hscored]
      exact List.mem_append_right _ List.mem_cons_self
    refine
      { reports := .of_not_gaveUp hnot hlog.debugLines_eq
        places := hplaces
        tried := List.forall_mem_append.2 ⟨hswapping.tried, List.forall_mem_singleton.2 htried⟩
        rejected := ?_
        length_le := ?_
        fellBack := fun hfalls => absurd hfalls hnot
        found := fun _ => ⟨_, pair, hscored, hswapping.fallsBack, hsuits, rfl, rfl⟩ }
    · -- the pair that is settled for is not reported
      have hlast : RejectsMisfits a b [pair] [] := by
        rw [RejectsMisfits, List.flatMap_singleton, misfits_eq_nil hsuits]
        exact .nil
      show RejectsMisfits a b _ (traceLines t.log)
      rw [hscored, hlog.traceLines_eq, ← List.append_nil t.log]
      exact hswapping.rejected.append hlast
    · rw [List.length_append, List.length_singleton]
      omega

/-- Without two expressions a recombination ends at once. -/
theorem Swapped.eq_of_root_eq_none {o : Offspring}
    {attempts : List SwapAttempt} (h : Swapped a b o attempts)
    (hpos : 0 < a.settings.attempts) (hnone : a.root = none ∨ b.root = none) :
    (o, attempts) = (⟨a, b, []⟩, []) := by
  have hplace := not_mem_both_locations
    (hnone.imp locations_eq_nil_iff.2 locations_eq_nil_iff.2)
  cases h with
  | nowhere _ => rfl
  | fellBack hlength hswapping =>
    obtain ⟨attempt, hattempt⟩ := List.exists_mem_of_length_pos (hlength ▸ hpos)
    exact absurd (hswapping.tried attempt hattempt).mem_locations (hplace _)
  | found _ _ htried _ => exact absurd htried.mem_locations (hplace _)

end Report

/-! ## Main statement -/

/-- A run of a search ends in one of the ways in which it can end. -/
theorem searched_run {propose : Individual → Path → Draw (Option Expr)} {exhausted : Nat → Event}
    (h : (i.searchEdit propose exhausted).WellPosed) {σ : Type} [WordSource σ] (s : σ) :
    i.Searched propose exhausted ((i.searchEditNoting propose exhausted).run s).1.1
      ((i.searchEditNoting propose exhausted).run s).1.2 := by
  rw [← fst_searchEditNoting, Draw.wellPosed_map] at h
  exact possible_searchEditNoting (Draw.possible_run h s)

/-- A run of a hoist ends in one of the ways in which it can end. -/
theorem hoisted_run (h : i.mutateHoist.WellPosed) {σ : Type} [WordSource σ] (s : σ) :
    i.Hoisted (i.mutateHoistNoting.run s).1.1 (i.mutateHoistNoting.run s).1.2 := by
  rw [← fst_mutateHoistNoting, Draw.wellPosed_map] at h
  exact possible_mutateHoistNoting (Draw.possible_run h s)

/-- A run of a recombination ends, after its attempts, in one of the ways in which it can end. -/
theorem swapped_run (a b : Individual) {σ : Type} [WordSource σ] (s : σ) :
    Swapped a b ((a.recombineNoting b).run s).1.1 ((a.recombineNoting b).run s).1.2 := by
  have h : (a.recombineNoting b).WellPosed := by
    rw [← Draw.wellPosed_map (f := Prod.fst), fst_recombineNoting]
    exact wellPosed_recombine a b
  exact possible_recombineNoting (Draw.possible_run h s)

/-- **Giving up is reported, and only where all attempts are used up.**  Whatever the words, an
individual of a search with an expression reports that replacing or collapsing a subtree,
hoisting or recombining came to nothing, in one line, exactly if it did.  Replacing a subtree
has then scored as many expressions as there are attempts and reported the rejection of each,
with its text; otherwise it has reported fewer rejections.  Collapsing and recombining have
scored at most as many, and of each pair a recombination reports the rejections by those whom
it does not suit.  Hoisting has then drawn one position more, leaves all of them.  Without an
expression nothing is reported, and nothing scored.

The notes that tell of the attempts can be forgotten, and the places that they tell are the
positions that are drawn. -/
theorem giving_up_is_reported (hi : Reachable i) (j : Individual) :
    (Prod.fst <$> i.mutateSubtreeNoting = i.mutateSubtree ∧
      Prod.fst <$> i.mutateCollapseNoting = i.mutateCollapse ∧
      Prod.fst <$> i.mutateHoistNoting = i.mutateHoist ∧
      Prod.fst <$> i.recombineNoting j = i.recombine j) ∧
    ∀ {σ : Type} [WordSource σ] (s : σ),
      let subtree := (i.mutateSubtreeNoting.run s).1
      let collapse := (i.mutateCollapseNoting.run s).1
      let hoist := (i.mutateHoistNoting.run s).1
      let swap := ((i.recombineNoting j).run s).1
      (i.root ≠ none →
        (i.SearchReport freshSubtree (.subtreeExhausted i.settings.attempts)
            (i.mutateSubtree.drawn s) subtree ∧
          (subtree.1.changed = false → (scoredIn subtree.2).length = i.settings.attempts)) ∧
        (i.SearchReport (fun j path => return j.collapsed? path)
            (.collapseExhausted i.settings.attempts) (i.mutateCollapse.drawn s) collapse ∧
          (scoredIn collapse.2).length ≤ i.settings.attempts) ∧
        i.HoistReport (i.mutateHoist.answers s) hoist ∧
        (j.root ≠ none → SwapReport i j ((i.recombine j).answers s) swap ∧
          (scoredIn swap.2).length ≤ i.settings.attempts)) ∧
      (i.root = none →
        subtree = (i.unchanged [], []) ∧ collapse = (i.unchanged [], []) ∧
        hoist = (i.unchanged [], [])) ∧
      (i.root = none ∨ j.root = none → swap = (⟨i, j, []⟩, [])) := by
  have hvalid : i.settings.Valid := hi.sound.valid
  refine ⟨⟨fst_searchEditNoting .., fst_searchEditNoting .., fst_mutateHoistNoting i,
    fst_recombineNoting i j⟩, fun s => ?_⟩
  have hsubtree := searched_run (wellPosed_applyMutation hvalid .subtree) s
  have hcollapse := searched_run (wellPosed_applyMutation hvalid .collapse) s
  have hhoist := hoisted_run (wellPosed_applyMutation hvalid .hoist) s
  have hswap := swapped_run i j s
  have hsubtreeDrawn := drawn_searchEdit drawsNone_freshSubtree i .subtreeExhausted s
  have hcollapseDrawn := drawn_searchEdit drawsNone_collapsed? i .collapseExhausted s
  refine ⟨fun hroot => ?_, fun hnone => ⟨?_, ?_, ?_⟩, fun hnone => ?_⟩
  · have hsubtreeReport := hsubtree.report hsubtreeDrawn hroot fun _ => rfl
    have hcollapseReport := hcollapse.report hcollapseDrawn hroot fun _ => rfl
    refine ⟨⟨hsubtreeReport, hsubtreeReport.length_scoredIn_eq⟩, ⟨hcollapseReport, ?_⟩,
      hhoist.report (i.answers_mutateHoist s) hroot, fun hroot' => ?_⟩
    · exact Nat.le_trans length_scoredIn_le hcollapseReport.length_le
    · have hplaces := answers_recombine (mt locations_eq_nil_iff.1 hroot)
        (mt locations_eq_nil_iff.1 hroot') s
      have hswapReport := hswap.report hplaces hroot hroot'
      exact ⟨hswapReport, Nat.le_trans length_scoredIn_le hswapReport.length_le⟩
  · exact hsubtree.eq_of_root_eq_none hvalid.attempts_pos hnone
  · exact hcollapse.eq_of_root_eq_none hvalid.attempts_pos hnone
  · exact hhoist.eq_of_root_eq_none hnone
  · exact hswap.eq_of_root_eq_none hvalid.attempts_pos hnone

/-- The parabola reports truly what becomes of it with the words of a generator. -/
theorem giving_up_is_reported_parabola :
    let s := Xoshiro256.ofSeed 7
    Reachable parabola ∧ parabola.root ≠ none ∧
      (parabola.mutateSubtree.run s).1 = (parabola.mutateSubtreeNoting.run s).1.1 ∧
      parabola.SearchReport freshSubtree (.subtreeExhausted parabola.settings.attempts)
        (parabola.mutateSubtree.drawn s) (parabola.mutateSubtreeNoting.run s).1 ∧
      parabola.HoistReport (parabola.mutateHoist.answers s) (parabola.mutateHoistNoting.run s).1 ∧
      SwapReport parabola parabola ((parabola.recombine parabola).answers s)
        ((parabola.recombineNoting parabola).run s).1 := by
  intro s
  have hroot : parabola.root ≠ none := by
    rw [root_parabola]
    exact Option.some_ne_none _
  obtain ⟨⟨hforget, -⟩, hreports⟩ := giving_up_is_reported reachable_parabola parabola
  obtain ⟨hsome, -⟩ := hreports s
  obtain ⟨⟨hsubtree, -⟩, -, hhoist, hswap⟩ := hsome hroot
  have hrun : (parabola.mutateSubtree.run s).1 = (parabola.mutateSubtreeNoting.run s).1.1 := by
    rw [← hforget, Draw.run_map]
  exact ⟨reachable_parabola, hroot, hrun, hsubtree, hhoist, (hswap hroot).1⟩

end Individual

end SymbolicRegression
