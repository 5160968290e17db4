/-
# Attempts

A search for an edit, a hoist and a recombination make one attempt after another, and what
they try on the way shows in none of their results.  Here every attempt leaves a note of where
it was made and what was scored in it.

* `Attempt` : where an attempt was made, and what was scored in it;
* `Individual.mutateSubtreeNoting`, `Individual.mutateCollapseNoting`,
  `Individual.mutateHoistNoting`, `Individual.recombineNoting` : the operations, with notes;
* `Individual.fst_searchEditNoting`, `Individual.fst_mutateHoistNoting`,
  `Individual.fst_recombineNoting` : **forgetting the notes gives the operations**;
* `Individual.Rejects`, `Individual.misfits` : which expressions are rejected, and with what
  line;
* `Individual.Searched`, `Individual.Hoisted`, `Individual.Swapped` : how they end, and after
  what attempts.
-/
import Mathlib.Data.List.Forall2
import SymbolicRegression.Proofs.Mutation
import SymbolicRegression.Proofs.Notes
import SymbolicRegression.Proofs.Recombination

namespace SymbolicRegression

/-! ## Attempts -/

/-- An attempt: the place that was drawn for it, and what was scored in it, if it came to that. -/
structure Attempt (π κ : Type) where
  place : π
  scored : Option κ

/-- An attempt to edit an individual at a position. -/
abbrev EditAttempt := Attempt Path Expr

/-- An attempt to exchange what two individuals have at a position each. -/
abbrev SwapAttempt := Attempt (Path × Path) (Expr × Expr)

/-- What was scored in some attempts. -/
def scoredIn {π κ : Type} (attempts : List (Attempt π κ)) : List κ :=
  attempts.filterMap Attempt.scored

section Attempts

variable {π κ : Type} {attempts : List (Attempt π κ)} {attempt : Attempt π κ}

/-- One more attempt adds what was scored in it, if anything. -/
theorem scoredIn_append_singleton :
    scoredIn (attempts ++ [attempt]) = scoredIn attempts ++ attempt.scored.toList := by
  rw [scoredIn, List.filterMap_append]
  obtain ⟨place, scored⟩ := attempt
  cases scored with
  | none => rfl
  | some e => rfl

/-- At most as much is scored as is attempted. -/
theorem length_scoredIn_le : (scoredIn attempts).length ≤ attempts.length :=
  List.length_filterMap_le _ _

/-- In attempts that all come to a scoring as much is scored as is attempted. -/
theorem length_scoredIn (h : ∀ attempt ∈ attempts, attempt.scored.isSome = true) :
    (scoredIn attempts).length = attempts.length :=
  List.filterMap_length_eq_length.2 h

/-- Where there is no place for an attempt, none has been made. -/
theorem attempts_eq_nil {P : π → Prop} (h : ∀ attempt ∈ attempts, P attempt.place)
    (hnone : ∀ place, ¬ P place) : attempts = [] :=
  List.eq_nil_iff_forall_not_mem.2 fun attempt hmem => hnone _ (h attempt hmem)

end Attempts

/-! ## The normal course -/

/-- Only the normal course shows in a log. -/
def Uneventful (log : List Event) : Prop := ∀ event ∈ log, event.level = .trace

namespace Individual

variable {i a b : Individual} {e old new root root' : Expr} {path : Path} {o : Outcome}

/-! ## Operations with notes -/

/-- The expression of the individual that `tryAt` scores. -/
def candidate? (i : Individual) (path : Path) (new : Expr) : Option Expr :=
  (i.exchange? path new).bind fun edited => edited.2.root

/-- `tryEdit`, noting the attempt. -/
def tryEditNoting (propose : Individual → Path → Draw (Option Expr)) (paths : List Path)
    (fitness : Float) (t : Progress) : Draw ((Outcome ⊕ Progress) × Option EditAttempt) := do
  match ← Draw.element? paths with
  | none => return (.inl (t.individual.unchanged t.log), none)
  | some path =>
      match ← propose t.individual path with
      | none => return (.inr t, some ⟨path, none⟩)
      | some new =>
          return (tryAt fitness t path new, some ⟨path, t.individual.candidate? path new⟩)

/-- `searchEdit`, with its attempts. -/
def searchEditNoting (i : Individual) (propose : Individual → Path → Draw (Option Expr))
    (exhausted : Nat → Event) : Draw (Outcome × List EditAttempt) :=
  Draw.retryNoting (tryEditNoting propose i.locations i.fitness)
    (fun t => t.individual.unchanged (t.log ++ [exhausted i.settings.attempts]))
    i.settings.attempts ⟨i, []⟩

/-- `mutateSubtree`, with its attempts. -/
def mutateSubtreeNoting (i : Individual) : Draw (Outcome × List EditAttempt) :=
  i.searchEditNoting freshSubtree .subtreeExhausted

/-- `mutateCollapse`, with its attempts. -/
def mutateCollapseNoting (i : Individual) : Draw (Outcome × List EditAttempt) :=
  i.searchEditNoting (fun j path => return j.collapsed? path) .collapseExhausted

/-- `tryHoist`, noting the attempt. -/
def tryHoistNoting (i : Individual) : Draw ((Outcome ⊕ Unit) × Option EditAttempt) := do
  match ← Draw.element? i.locations with
  | none => return (.inl (i.unchanged []), none)
  | some path =>
      match i.get? path with
      | none => return (.inr (), some ⟨path, none⟩)
      | some e =>
          if e.isLeaf then return (.inr (), some ⟨path, none⟩)
          else return (.inl { i with root := some e }.rescore.outcome, some ⟨path, some e⟩)

/-- `mutateHoist`, with its attempts. -/
def mutateHoistNoting (i : Individual) : Draw (Outcome × List EditAttempt) :=
  Draw.retryNoting (fun _ => i.tryHoistNoting) (fun _ => i.unchanged [.hoistExhausted])
    (i.settings.attempts + 1) ()

/-- The expressions of the two individuals that `exchangeAt` scores. -/
def candidates? (maxDepth : Nat) (t : Offspring) (path₁ path₂ : Path) : Option (Expr × Expr) :=
  match t.first.get? path₁, t.second.get? path₂ with
  | some e₁, some e₂ =>
      if exchangeFits maxDepth path₁ path₂ e₁ e₂ then
        match t.first.candidate? path₁ e₂, t.second.candidate? path₂ e₁ with
        | some first, some second => some (first, second)
        | _, _ => none
      else none
  | _, _ => none

/-- `tryExchange`, noting the attempt. -/
def tryExchangeNoting (maxDepth : Nat) (paths₁ paths₂ : List Path) (t : Offspring) :
    Draw ((Offspring ⊕ Offspring) × Option SwapAttempt) := do
  let path₁? ← Draw.element? paths₁
  let path₂? ← Draw.element? paths₂
  match path₁?, path₂? with
  | some path₁, some path₂ =>
      return (exchangeAt maxDepth t path₁ path₂,
        some ⟨(path₁, path₂), candidates? maxDepth t path₁ path₂⟩)
  | _, _ => return (.inl t, none)

/-- `recombine`, with its attempts. -/
def recombineNoting (a b : Individual) :
    Draw (Offspring × List SwapAttempt) :=
  Draw.retryNoting
    (tryExchangeNoting (min a.settings.maxDepth b.settings.maxDepth) a.locations b.locations)
    (fun t => ⟨a, b, t.log ++ [.recombinationExhausted a.settings.attempts]⟩)
    a.settings.attempts ⟨a, b, []⟩

/-! ## Forgetting the notes -/

/-- Forgetting the note of a try gives the try. -/
theorem fst_tryEditNoting (propose : Individual → Path → Draw (Option Expr)) (paths : List Path)
    (fitness : Float) (t : Progress) :
    Prod.fst <$> tryEditNoting propose paths fitness t = tryEdit propose paths fitness t := by
  rw [tryEditNoting, tryEdit, map_bind]
  refine bind_congr fun path? => ?_
  cases path? with
  | none => rfl
  | some path =>
    simp only [map_bind]
    refine bind_congr fun new? => ?_
    cases new? with
    | none => rfl
    | some new => rfl

/-- **Forgetting the attempts of a search gives the search.** -/
theorem fst_searchEditNoting (i : Individual) (propose : Individual → Path → Draw (Option Expr))
    (exhausted : Nat → Event) :
    Prod.fst <$> i.searchEditNoting propose exhausted = i.searchEdit propose exhausted := by
  rw [searchEditNoting, searchEdit, Draw.fst_retryNoting]
  simp only [fst_tryEditNoting]

/-- Forgetting the note of one hoist gives the hoist. -/
theorem fst_tryHoistNoting (i : Individual) : Prod.fst <$> i.tryHoistNoting = i.tryHoist := by
  rw [tryHoistNoting, tryHoist, map_bind]
  refine bind_congr fun path? => ?_
  cases path? with
  | none => rfl
  | some path =>
    cases hget : i.get? path with
    | none => simp only [hget, map_pure]
    | some e =>
      cases hleaf : e.isLeaf with
      | true => simp only [hget, hleaf, if_true, map_pure]
      | false => simp only [hget, hleaf, Bool.false_eq_true, if_false, map_pure]

/-- **Forgetting the attempts of a hoist gives the hoist.** -/
theorem fst_mutateHoistNoting (i : Individual) :
    Prod.fst <$> i.mutateHoistNoting = i.mutateHoist := by
  rw [mutateHoistNoting, mutateHoist, Draw.fst_retryNoting]
  simp only [fst_tryHoistNoting]

/-- Forgetting the note of one exchange gives the exchange. -/
theorem fst_tryExchangeNoting (maxDepth : Nat) (paths₁ paths₂ : List Path) (t : Offspring) :
    Prod.fst <$> tryExchangeNoting maxDepth paths₁ paths₂ t =
      tryExchange maxDepth paths₁ paths₂ t := by
  rw [tryExchangeNoting, tryExchange, map_bind]
  refine bind_congr fun path₁? => ?_
  rw [map_bind]
  refine bind_congr fun path₂? => ?_
  cases path₁? with
  | none => rfl
  | some path₁ =>
    cases path₂? with
    | none => rfl
    | some path₂ => rfl

/-- **Forgetting the attempts of a recombination gives the recombination.** -/
theorem fst_recombineNoting (a b : Individual) :
    Prod.fst <$> a.recombineNoting b = a.recombine b := by
  rw [recombineNoting, recombine, Draw.fst_retryNoting]
  simp only [fst_tryExchangeNoting]

/-! ## Without positions -/

/-- There is no position where nothing is listed. -/
theorem not_mem_locations (h : i.locations = []) (path : Path) : path ∉ i.locations := by
  rw [h]
  exact List.not_mem_nil

/-- There is no pair of positions if one of two individuals has none. -/
theorem not_mem_both_locations (h : a.locations = [] ∨ b.locations = []) (place : Path × Path) :
    ¬ (place.1 ∈ a.locations ∧ place.2 ∈ b.locations) := by
  rintro ⟨hplace₁, hplace₂⟩
  rcases h with hnil | hnil
  · exact not_mem_locations hnil _ hplace₁
  · exact not_mem_locations hnil _ hplace₂

/-! ## Rejections -/

/-- Scoring belongs to the normal course, whatever comes of it. -/
theorem uneventful_rescore (i : Individual) : Uneventful i.rescore.log := by
  intro event hevent
  rcases i.rescore_cases with ⟨_, _, -, h⟩ | ⟨-, cause, h⟩
  · rw [h] at hevent
    cases hevent
  · rw [h] at hevent
    rw [List.mem_singleton.1 hevent]
    rfl

/-- The event reports that the individual cannot be scored with `e` for its expression, and
why; its line shows `e`. -/
def Rejects (i : Individual) (e : Expr) (event : Event) : Prop :=
  ∃ cause, ({ i with root := some e } : Individual).score = .error cause ∧
    event = .scoringFailed (some e) cause ∧
    event.message = "scoring `" ++ e.text ++ "` failed: " ++ cause.message

/-- A rejection belongs to the normal course. -/
theorem Rejects.level_eq {event : Event} (h : i.Rejects e event) : event.level = .trace := by
  obtain ⟨cause, -, rfl, -⟩ := h
  rfl

/-- Nothing but rejections is nothing but the normal course. -/
theorem uneventful_of_forall₂ {κ : Type} {R : κ → Event → Prop}
    (hlevel : ∀ x event, R x event → event.level = .trace) {xs : List κ} {events : List Event}
    (h : List.Forall₂ R xs events) : Uneventful events := by
  induction h with
  | nil =>
    intro event hevent
    cases hevent
  | cons hfirst _ ih =>
    intro event hevent
    rcases List.mem_cons.1 hevent with rfl | hevent
    · exact hlevel _ _ hfirst
    · exact ih event hevent

/-- Rejections of one expression after the other are nothing but the normal course. -/
theorem uneventful_of_rejects {candidates : List Expr} {events : List Event}
    (h : List.Forall₂ i.Rejects candidates events) : Uneventful events :=
  uneventful_of_forall₂ (fun _ _ => Rejects.level_eq) h

/-- **What cannot be scored is rejected with one event.** -/
theorem rejects_of_not_isValid (h : ¬ (i.scoredWith e).isValid = true) :
    List.Forall₂ i.Rejects [e] ({ i with root := some e } : Individual).rescore.log := by
  cases hscore : ({ i with root := some e } : Individual).score with
  | ok score => exact absurd (isValid_rescore_iff.2 ⟨_, _, score_eq_ok_iff.1 hscore⟩) h
  | error cause =>
    have hlog : ({ i with root := some e } : Individual).rescore.log =
        [.scoringFailed (some e) cause] := by rw [rescore, hscore]
    rw [hlog]
    exact .cons ⟨cause, hscore, rfl, rfl⟩ .nil

/-! ## The attempts of a search -/

section Search

variable {propose : Individual → Path → Draw (Option Expr)} {exhausted : Nat → Event}
  {attempt : EditAttempt} {attempts : List EditAttempt}

/-- What is scored at a position is the expression with the other part spliced in there. -/
theorem candidate?_of_splice (hroot : i.root = some root) (h : Splice old new path root root') :
    i.candidate? path new = some root' := by
  rw [candidate?, exchange?_of_splice hroot h]
  rfl

/-- An attempt of a search.  At one of the positions something is proposed, and the whole is
scored with it in that place; or nothing is proposed, and nothing scored. -/
inductive Tried (i : Individual) (propose : Individual → Path → Draw (Option Expr)) :
    EditAttempt → Prop
  | passed {path : Path} (hmem : path ∈ i.locations)
      (hnone : (propose i path).Possible none) : Tried i propose ⟨path, none⟩
  | scored {path : Path} {root old new candidate : Expr} (hmem : path ∈ i.locations)
      (hroot : i.root = some root) (hnew : (propose i path).Possible (some new))
      (hsplice : Splice old new path root candidate) : Tried i propose ⟨path, some candidate⟩

/-- The place of an attempt is a position of the individual. -/
theorem Tried.mem_locations (h : i.Tried propose attempt) : attempt.place ∈ i.locations := by
  cases h with
  | passed hmem _ => exact hmem
  | scored hmem _ _ _ => exact hmem

/-- How one try ends, when the individual is as it was at the beginning. -/
inductive EditTry (i : Individual) (propose : Individual → Path → Draw (Option Expr))
    (log : List Event) : Outcome ⊕ Progress → Option EditAttempt → Prop
  | nowhere (hnil : i.locations = []) : EditTry i propose log (.inl (i.unchanged log)) none
  | accepted {path : Path} {e : Expr} (htried : i.Tried propose ⟨path, some e⟩)
      (hvalid : (i.scoredWith e).isValid = true) :
      EditTry i propose log (.inl ⟨i.scoredWith e, true, log⟩) (some ⟨path, some e⟩)
  | rejected {attempt : EditAttempt} {events : List Event} (htried : i.Tried propose attempt)
      (hrejected : List.Forall₂ i.Rejects attempt.scored.toList events) :
      EditTry i propose log (.inr ⟨i, log ++ events⟩) (some attempt)

/-- **A try ends in one of these ways**, and its note tells what was scored. -/
theorem possible_tryEditNoting {log : List Event} {outcome : Outcome ⊕ Progress}
    {note : Option EditAttempt}
    (h : (tryEditNoting propose i.locations i.fitness ⟨i, log⟩).Possible (outcome, note)) :
    EditTry i propose log outcome note := by
  obtain ⟨path?, hpath, h⟩ := Draw.possible_bind.1 h
  rcases Draw.possible_element?.1 hpath with ⟨hnil, rfl⟩ | ⟨path, hmem, rfl⟩
  · cases Draw.possible_pure.1 h
    exact .nowhere hnil
  · obtain ⟨new?, hnew, h⟩ := Draw.possible_bind.1 h
    cases new? with
    | none =>
      cases Draw.possible_pure.1 h
      have hrejected : EditTry i propose log (.inr ⟨i, log ++ []⟩) (some ⟨path, none⟩) :=
        .rejected (.passed hmem hnew) .nil
      rwa [List.append_nil] at hrejected
    | some new =>
      -- the position comes from the individual as it still is, so there is something to score
      obtain ⟨root, old, hroot, hold⟩ := exists_get?_of_mem_locations hmem
      obtain ⟨root', hsplice⟩ := Expr.exists_splice_of_get? hold new
      have htried : i.Tried propose ⟨path, some root'⟩ := .scored hmem hroot hnew hsplice
      have h := Draw.possible_pure.1 h
      rw [tryAt_eq hroot hsplice, candidate?_of_splice hroot hsplice] at h
      simp only at h
      split at h
      · rename_i hvalid
        rw [log_rescore_of_isValid hvalid, List.append_nil] at h
        cases h
        exact .accepted htried hvalid
      · rename_i hvalid
        cases h
        exact .rejected htried (rejects_of_not_isValid hvalid)

/-- Where a search stands after some attempts: the individual is as it was, and the log
consists of the rejections of what was scored. -/
structure Searching (i : Individual) (propose : Individual → Path → Draw (Option Expr))
    (t : Progress) (attempts : List EditAttempt) : Prop where
  individual_eq : t.individual = i
  tried : ∀ attempt ∈ attempts, i.Tried propose attempt
  rejected : List.Forall₂ i.Rejects (scoredIn attempts) t.log

/-- A search goes on with one more attempt, and with its rejection if it came to one. -/
theorem Searching.append {log events : List Event} (h : i.Searching propose ⟨i, log⟩ attempts)
    (htried : i.Tried propose attempt)
    (hrejected : List.Forall₂ i.Rejects attempt.scored.toList events) :
    i.Searching propose ⟨i, log ++ events⟩ (attempts ++ [attempt]) := by
  refine ⟨rfl, ?_, ?_⟩
  · exact List.forall_mem_append.2 ⟨h.tried, List.forall_mem_singleton.2 htried⟩
  · rw [scoredIn_append_singleton]
    exact List.rel_append h.rejected hrejected

/-- How a search for an edit ends, and after what attempts. -/
inductive Searched (i : Individual) (propose : Individual → Path → Draw (Option Expr))
    (exhausted : Nat → Event) : Outcome → List EditAttempt → Prop
  | nowhere (hnil : i.locations = []) : Searched i propose exhausted (i.unchanged []) []
  | gaveUp {events : List Event} {attempts : List EditAttempt}
      (hlength : attempts.length = i.settings.attempts)
      (hsearching : i.Searching propose ⟨i, events⟩ attempts) :
      Searched i propose exhausted
        (i.unchanged (events ++ [exhausted i.settings.attempts])) attempts
  | found {events : List Event} {attempts : List EditAttempt} {path : Path} {e : Expr}
      (hlength : attempts.length < i.settings.attempts)
      (hsearching : i.Searching propose ⟨i, events⟩ attempts)
      (htried : i.Tried propose ⟨path, some e⟩) (hvalid : (i.scoredWith e).isValid = true) :
      Searched i propose exhausted ⟨i.scoredWith e, true, events⟩ (attempts ++ [⟨path, some e⟩])

/-- **How a search for an edit ends**, after however many attempts. -/
theorem possible_searchEditNoting
    (h : (i.searchEditNoting propose exhausted).Possible (o, attempts)) :
    i.Searched propose exhausted o attempts := by
  -- the invariant: the tries that are left and the attempts so far are as many as are allowed
  refine Draw.possible_retryNoting (fun tries t attempts =>
    attempts.length + tries = i.settings.attempts ∧ i.Searching propose t attempts) ?_ ?_ ?_ ?_ h
  · rintro tries ⟨_, log⟩ attempts result note ⟨hcount, hsearching⟩ hstep
    obtain rfl : _ = i := hsearching.individual_eq
    cases possible_tryEditNoting hstep with
    | nowhere hnil =>
      -- an attempt before would have needed a position
      obtain rfl : attempts = [] := attempts_eq_nil
        (fun attempt hmem => (hsearching.tried attempt hmem).mem_locations)
        (not_mem_locations hnil)
      obtain rfl : log = [] := List.forall₂_nil_left_iff.1 hsearching.rejected
      exact .nowhere hnil
    | accepted htried hvalid => exact .found (by omega) hsearching htried hvalid
  · rintro tries ⟨_, log⟩ attempts t' note ⟨hcount, hsearching⟩ hstep
    obtain rfl : _ = i := hsearching.individual_eq
    cases possible_tryEditNoting hstep with
    | rejected htried hrejected =>
      refine ⟨?_, hsearching.append htried hrejected⟩
      rw [Option.toList_some, List.length_append, List.length_singleton]
      omega
  · rintro ⟨_, log⟩ attempts ⟨hcount, hsearching⟩
    obtain rfl : _ = i := hsearching.individual_eq
    exact .gaveUp (by omega) hsearching
  · refine ⟨?_, rfl, ?_, .nil⟩
    · rw [List.length_nil, Nat.zero_add]
    · intro attempt hattempt
      cases hattempt

end Search

/-! ## The attempts of a hoist -/

section Hoist

variable {attempt : EditAttempt} {attempts : List EditAttempt}

/-- An attempt of a hoist that came upon a leaf. -/
structure HitLeaf (i : Individual) (attempt : EditAttempt) : Prop where
  mem_locations : attempt.place ∈ i.locations
  isLeaf : ∃ leaf, i.get? attempt.place = some leaf ∧ leaf.isLeaf = true
  scored_eq : attempt.scored = none

/-- How a hoist ends, and after what attempts. -/
inductive Hoisted (i : Individual) : Outcome → List EditAttempt → Prop
  | nowhere (hnil : i.locations = []) : Hoisted i (i.unchanged []) []
  | gaveUp {attempts : List EditAttempt}
      (hlength : attempts.length = i.settings.attempts + 1)
      (hleaves : ∀ attempt ∈ attempts, i.HitLeaf attempt) :
      Hoisted i (i.unchanged [.hoistExhausted]) attempts
  | found {attempts : List EditAttempt} {path : Path} {e : Expr}
      (hleaves : ∀ attempt ∈ attempts, i.HitLeaf attempt) (hget : i.get? path = some e)
      (hoperator : e.isLeaf = false) :
      Hoisted i ({ i with root := some e } : Individual).rescore.outcome
        (attempts ++ [⟨path, some e⟩])

/-- How one try to hoist ends: it hoists an operator position, or it came upon a leaf. -/
theorem possible_tryHoistNoting {outcome : Outcome ⊕ Unit} {note : Option EditAttempt}
    (h : i.tryHoistNoting.Possible (outcome, note)) :
    (i.locations = [] ∧ outcome = .inl (i.unchanged []) ∧ note = none) ∨
    (∃ path e, i.get? path = some e ∧ e.isLeaf = false ∧
      outcome = .inl ({ i with root := some e } : Individual).rescore.outcome ∧
      note = some ⟨path, some e⟩) ∨
    ∃ attempt, i.HitLeaf attempt ∧ outcome = .inr () ∧ note = some attempt := by
  obtain ⟨path?, hpath, h⟩ := Draw.possible_bind.1 h
  rcases Draw.possible_element?.1 hpath with ⟨hnil, rfl⟩ | ⟨path, hmem, rfl⟩
  · cases Draw.possible_pure.1 h
    exact .inl ⟨hnil, rfl, rfl⟩
  · obtain ⟨root, e, hroot, he⟩ := exists_get?_of_mem_locations hmem
    have hget : i.get? path = some e := (get?_eq hroot).trans he
    simp only [hget] at h
    cases hleaf : e.isLeaf with
    | true =>
      rw [hleaf, if_pos rfl] at h
      cases Draw.possible_pure.1 h
      exact .inr (.inr ⟨_, ⟨hmem, ⟨e, hget, hleaf⟩, rfl⟩, rfl, rfl⟩)
    | false =>
      rw [hleaf, if_neg Bool.false_ne_true] at h
      cases Draw.possible_pure.1 h
      exact .inr (.inl ⟨path, e, hget, hleaf, rfl, rfl⟩)

/-- **How a hoist ends**, after however many leaves. -/
theorem possible_mutateHoistNoting (h : i.mutateHoistNoting.Possible (o, attempts)) :
    i.Hoisted o attempts := by
  refine Draw.possible_retryNoting (fun tries _ attempts =>
    attempts.length + tries = i.settings.attempts + 1 ∧
      ∀ attempt ∈ attempts, i.HitLeaf attempt) ?_ ?_ ?_ ?_ h
  · rintro tries _ attempts result note ⟨-, hleaves⟩ hstep
    rcases possible_tryHoistNoting hstep with ⟨hnil, hr, rfl⟩ | ⟨path, e, hget, hop, hr, rfl⟩ |
      ⟨attempt, -, hr, -⟩
    · cases hr
      obtain rfl : attempts = [] := attempts_eq_nil
        (fun attempt hmem => (hleaves attempt hmem).mem_locations) (not_mem_locations hnil)
      exact .nowhere hnil
    · cases hr
      exact .found hleaves hget hop
    · cases hr
  · rintro tries _ attempts t' note ⟨hcount, hleaves⟩ hstep
    rcases possible_tryHoistNoting hstep with ⟨-, hr, -⟩ | ⟨path, e, -, -, hr, -⟩ |
      ⟨attempt, hleaf, -, rfl⟩
    · cases hr
    · cases hr
    · refine ⟨?_, List.forall_mem_append.2 ⟨hleaves, List.forall_mem_singleton.2 hleaf⟩⟩
      rw [Option.toList_some, List.length_append, List.length_singleton]
      omega
  · rintro _ attempts ⟨hcount, hleaves⟩
    exact .gaveUp (by omega) hleaves
  · refine ⟨?_, ?_⟩
    · rw [List.length_nil, Nat.zero_add]
    · intro attempt hattempt
      cases hattempt

end Hoist

/-! ## The attempts of a recombination -/

section Swap

variable {attempt : SwapAttempt}
  {attempts : List SwapAttempt}

/-- Both expressions of a pair give their individual a finite fitness. -/
def Suits (a b : Individual) (pair : Expr × Expr) : Prop :=
  (a.scoredWith pair.1).isValid = true ∧ (b.scoredWith pair.2).isValid = true

/-- No pair that was scored suits the two individuals. -/
def FallsBack (a b : Individual) (attempts : List SwapAttempt) : Prop :=
  ∀ pair ∈ scoredIn attempts, ¬ Suits a b pair

/-- Falling back goes on with an attempt at which nothing suits. -/
theorem FallsBack.append (h : FallsBack a b attempts)
    (hattempt : ∀ pair ∈ attempt.scored, ¬ Suits a b pair) :
    FallsBack a b (attempts ++ [attempt]) := by
  intro pair hpair
  rw [scoredIn_append_singleton] at hpair
  rcases List.mem_append.1 hpair with hpair | hpair
  · exact h pair hpair
  · exact hattempt pair (Option.mem_toList.1 hpair)

/-- An attempt of a recombination.  Two positions are chosen, and what stands there is
exchanged and both wholes are scored; or that would be too deep, and nothing is scored. -/
inductive SwapTried (a b : Individual) : SwapAttempt → Prop
  | refused {path₁ path₂ : Path} {root₁ root₂ e₁ e₂ : Expr} (ha : a.root = some root₁)
      (hb : b.root = some root₂) (h₁ : root₁.get? path₁ = some e₁)
      (h₂ : root₂.get? path₂ = some e₂)
      (hfits : exchangeFits (min a.settings.maxDepth b.settings.maxDepth) path₁ path₂ e₁ e₂ =
        false) : SwapTried a b ⟨(path₁, path₂), none⟩
  | scored {path₁ path₂ : Path} {root₁ root₂ root₁' root₂' e₁ e₂ : Expr}
      (ha : a.root = some root₁) (hb : b.root = some root₂)
      (h₁ : Splice e₁ e₂ path₁ root₁ root₁') (h₂ : Splice e₂ e₁ path₂ root₂ root₂')
      (hfits : exchangeFits (min a.settings.maxDepth b.settings.maxDepth) path₁ path₂ e₁ e₂ =
        true) : SwapTried a b ⟨(path₁, path₂), some (root₁', root₂')⟩

/-- Both positions are there. -/
theorem SwapTried.mem_locations (h : SwapTried a b attempt) :
    attempt.place.1 ∈ a.locations ∧ attempt.place.2 ∈ b.locations := by
  cases h with
  | refused ha hb h₁ h₂ _ => exact ⟨Individual.mem_locations ha h₁, Individual.mem_locations hb h₂⟩
  | scored ha hb h₁ h₂ _ =>
    exact ⟨Individual.mem_locations ha (Expr.get?_of_splice h₁),
      Individual.mem_locations hb (Expr.get?_of_splice h₂)⟩

/-- Which individual a pair does not suit, and with what expression. -/
def misfits (a b : Individual) (pair : Expr × Expr) : List (Individual × Expr) :=
  [(a, pair.1), (b, pair.2)].filter fun member => !(member.1.scoredWith member.2).isValid

/-- The lines are the rejections that some pairs give rise to, pair by pair, and in each pair
the first individual before the second. -/
def RejectsMisfits (a b : Individual) (pairs : List (Expr × Expr)) (events : List Event) : Prop :=
  List.Forall₂ (fun misfit => misfit.1.Rejects misfit.2) (pairs.flatMap (misfits a b)) events

/-- Scoring an individual with an expression reports whether they fit. -/
theorem rejects_rescore (i : Individual) (e : Expr) :
    List.Forall₂ (fun misfit : Individual × Expr => misfit.1.Rejects misfit.2)
      ([(i, e)].filter fun member => !(member.1.scoredWith member.2).isValid)
      ({ i with root := some e } : Individual).rescore.log := by
  cases hvalid : (i.scoredWith e).isValid with
  | true =>
    have hnone : ([(i, e)].filter fun member => !(member.1.scoredWith member.2).isValid) = [] := by
      simp [hvalid]
    rw [hnone, log_rescore_of_isValid hvalid]
    exact .nil
  | false =>
    have hone : ([(i, e)].filter fun member => !(member.1.scoredWith member.2).isValid) =
        [e].map fun e => (i, e) := by
      simp [hvalid]
    rw [hone]
    exact List.forall₂_map_left_iff.2 (rejects_of_not_isValid (by rw [hvalid]; decide))

/-- **Scoring a pair reports its misfits**, and nothing more. -/
theorem rejectsMisfits_rescore (a b : Individual) (pair : Expr × Expr) :
    RejectsMisfits a b [pair] (({ a with root := some pair.1 } : Individual).rescore.log ++
      ({ b with root := some pair.2 } : Individual).rescore.log) := by
  rw [RejectsMisfits, List.flatMap_singleton, misfits, ← List.singleton_append, List.filter_append]
  exact List.rel_append (rejects_rescore a pair.1) (rejects_rescore b pair.2)

/-- A pair that suits has no misfits. -/
theorem misfits_eq_nil {pair : Expr × Expr} (h : Suits a b pair) : misfits a b pair = [] := by
  rw [misfits, List.filter_eq_nil_iff]
  intro member hmember
  rcases List.mem_pair.1 hmember with rfl | rfl
  · simp [h.1]
  · simp [h.2]

/-- Rejections of more pairs follow those of the pairs before. -/
theorem RejectsMisfits.append {pairs more : List (Expr × Expr)} {events events' : List Event}
    (h : RejectsMisfits a b pairs events) (h' : RejectsMisfits a b more events') :
    RejectsMisfits a b (pairs ++ more) (events ++ events') := by
  rw [RejectsMisfits, List.flatMap_append]
  exact List.rel_append h h'

/-- Misfits belong to the normal course. -/
theorem RejectsMisfits.uneventful {pairs : List (Expr × Expr)} {events : List Event}
    (h : RejectsMisfits a b pairs events) : Uneventful events :=
  uneventful_of_forall₂ (fun _ _ => Rejects.level_eq) h

/-- Where a recombination stands after some attempts: both individuals have their expressions,
and before the first attempt their fitnesses too; the log consists of the rejections of the
pairs that were scored. -/
structure Swapping (a b : Individual) (t : Offspring)
    (attempts : List SwapAttempt) : Prop where
  individuals_eq : ∃ f₁ f₂, t.first = { a with fitness := f₁ } ∧ t.second = { b with fitness := f₂ }
  fresh : attempts = [] → t = ⟨a, b, []⟩
  tried : ∀ attempt ∈ attempts, SwapTried a b attempt
  fallsBack : FallsBack a b attempts
  rejected : RejectsMisfits a b (scoredIn attempts) t.log

/-- How a recombination ends, and after what attempts. -/
inductive Swapped (a b : Individual) :
    Offspring → List SwapAttempt → Prop
  | nowhere (hnil : a.locations = [] ∨ b.locations = []) : Swapped a b ⟨a, b, []⟩ []
  | fellBack {t : Offspring} {attempts : List SwapAttempt}
      (hlength : attempts.length = a.settings.attempts) (hswapping : Swapping a b t attempts) :
      Swapped a b ⟨a, b, t.log ++ [.recombinationExhausted a.settings.attempts]⟩ attempts
  | found {t : Offspring} {attempts : List SwapAttempt}
      {place : Path × Path} {pair : Expr × Expr} (hlength : attempts.length < a.settings.attempts)
      (hswapping : Swapping a b t attempts) (htried : SwapTried a b ⟨place, some pair⟩)
      (hsuits : Suits a b pair) :
      Swapped a b ⟨a.scoredWith pair.1, b.scoredWith pair.2, t.log⟩
        (attempts ++ [⟨place, some pair⟩])

/-- How one try to exchange ends. -/
inductive SwapTry (a b : Individual) (t : Offspring) :
    Offspring ⊕ Offspring → Option SwapAttempt → Prop
  | nowhere (hnil : a.locations = [] ∨ b.locations = []) : SwapTry a b t (.inl t) none
  | accepted {place : Path × Path} {pair : Expr × Expr}
      (htried : SwapTried a b ⟨place, some pair⟩) (hsuits : Suits a b pair) :
      SwapTry a b t (.inl ⟨a.scoredWith pair.1, b.scoredWith pair.2, t.log⟩)
        (some ⟨place, some pair⟩)
  | rejected {attempt : SwapAttempt} {f₁ f₂ : Float} {events : List Event}
      (htried : SwapTried a b attempt) (hnot : ∀ pair ∈ attempt.scored, ¬ Suits a b pair)
      (hrejected : RejectsMisfits a b attempt.scored.toList events) :
      SwapTry a b t (.inr ⟨{ a with fitness := f₁ }, { b with fitness := f₂ }, t.log ++ events⟩)
        (some attempt)

/-- The two expressions that are scored in an exchange are those with the parts exchanged,
in case both are within the depth. -/
theorem candidates?_of_splice {root₁ root₂ root₁' root₂' e₁ e₂ : Expr} {path₁ path₂ : Path}
    (ha : a.root = some root₁) (hb : b.root = some root₂) (h₁ : Splice e₁ e₂ path₁ root₁ root₁')
    (h₂ : Splice e₂ e₁ path₂ root₂ root₂') (maxDepth : Nat) (log : List Event) :
    candidates? maxDepth ⟨a, b, log⟩ path₁ path₂ =
      if exchangeFits maxDepth path₁ path₂ e₁ e₂ then some (root₁', root₂') else none := by
  have hget₁ : a.get? path₁ = some e₁ := (get?_eq ha).trans (Expr.get?_of_splice h₁)
  have hget₂ : b.get? path₂ = some e₂ := (get?_eq hb).trans (Expr.get?_of_splice h₂)
  rw [candidates?]
  simp only [hget₁, hget₂, candidate?_of_splice ha h₁, candidate?_of_splice hb h₂]

/-- **One exchange ends in one of these ways**, and its note tells which pair was scored. -/
theorem possible_tryExchangeNoting {t : Offspring} (ht : Swapping a b t attempts)
    {outcome : Offspring ⊕ Offspring} {note : Option SwapAttempt}
    (h : (tryExchangeNoting (min a.settings.maxDepth b.settings.maxDepth) a.locations b.locations
      t).Possible (outcome, note)) : SwapTry a b t outcome note := by
  obtain ⟨path₁?, hpath₁, h⟩ := Draw.possible_bind.1 h
  obtain ⟨path₂?, hpath₂, h⟩ := Draw.possible_bind.1 h
  rcases Draw.possible_element?.1 hpath₁ with ⟨hnil, rfl⟩ | ⟨path₁, hmem₁, rfl⟩
  · cases Draw.possible_pure.1 h
    exact .nowhere (.inl hnil)
  · rcases Draw.possible_element?.1 hpath₂ with ⟨hnil, rfl⟩ | ⟨path₂, hmem₂, rfl⟩
    · cases Draw.possible_pure.1 h
      exact .nowhere (.inr hnil)
    · obtain ⟨root₁, e₁, ha, he₁⟩ := exists_get?_of_mem_locations hmem₁
      obtain ⟨root₂, e₂, hb, he₂⟩ := exists_get?_of_mem_locations hmem₂
      obtain ⟨root₁', h₁⟩ := Expr.exists_splice_of_get? he₁ e₂
      obtain ⟨root₂', h₂⟩ := Expr.exists_splice_of_get? he₂ e₁
      obtain ⟨f₁, f₂, hfirst, hsecond⟩ := ht.individuals_eq
      obtain ⟨first, second, log⟩ := t
      obtain rfl : first = { a with fitness := f₁ } := hfirst
      obtain rfl : second = { b with fitness := f₂ } := hsecond
      have h := Draw.possible_pure.1 h
      rw [exchangeAt_eq ha hb h₁ h₂,
        candidates?_of_splice (a := { a with fitness := f₁ }) (b := { b with fitness := f₂ })
          ha hb h₁ h₂] at h
      have hreport := rejectsMisfits_rescore a b (root₁', root₂')
      split at h
      · rename_i hfits
        have htried : SwapTried a b ⟨(path₁, path₂), some (root₁', root₂')⟩ :=
          .scored ha hb h₁ h₂ hfits
        simp only [List.append_assoc] at h
        split at h
        · rename_i hvalid
          rw [Bool.and_eq_true] at hvalid
          have hsuits : Suits a b (root₁', root₂') := hvalid
          -- a pair that suits is not reported
          have hsilent : ({ a with root := some root₁' } : Individual).rescore.log ++
              ({ b with root := some root₂' } : Individual).rescore.log = [] := by
            rw [RejectsMisfits, List.flatMap_singleton, misfits_eq_nil hsuits] at hreport
            exact List.forall₂_nil_left_iff.1 hreport
          rw [hsilent, List.append_nil] at h
          cases h
          exact .accepted htried hsuits
        · rename_i hvalid
          rw [Bool.and_eq_true] at hvalid
          cases h
          refine .rejected htried (fun pair hpair => ?_) hreport
          obtain rfl : (root₁', root₂') = pair := Option.some.inj hpair
          exact hvalid
      · rename_i hfits
        cases h
        have htried : SwapTried a b ⟨(path₁, path₂), none⟩ :=
          .refused ha hb he₁ he₂ (Bool.eq_false_iff.2 hfits)
        have hrejected : SwapTry a b ⟨{ a with fitness := f₁ }, { b with fitness := f₂ }, log⟩
            (.inr ⟨{ a with fitness := f₁ }, { b with fitness := f₂ }, log ++ []⟩)
            (some ⟨(path₁, path₂), none⟩) :=
          .rejected htried (fun pair hpair => nomatch hpair) .nil
        rwa [List.append_nil] at hrejected

/-- **How a recombination ends**, after however many attempts. -/
theorem possible_recombineNoting {o : Offspring}
    (h : (a.recombineNoting b).Possible (o, attempts)) : Swapped a b o attempts := by
  refine Draw.possible_retryNoting (fun tries t attempts =>
    attempts.length + tries = a.settings.attempts ∧ Swapping a b t attempts) ?_ ?_ ?_ ?_ h
  · rintro tries t attempts result note ⟨hcount, hswapping⟩ hstep
    cases possible_tryExchangeNoting hswapping hstep with
    | nowhere hnil =>
      obtain rfl : attempts = [] := attempts_eq_nil
        (fun attempt hmem => (hswapping.tried attempt hmem).mem_locations)
        (not_mem_both_locations hnil)
      rw [hswapping.fresh rfl]
      exact .nowhere hnil
    | accepted htried hsuits => exact .found (by omega) hswapping htried hsuits
  · rintro tries t attempts t' note ⟨hcount, hswapping⟩ hstep
    cases possible_tryExchangeNoting hswapping hstep with
    | rejected htried hnot hrejected =>
      refine ⟨?_, ⟨_, _, rfl, rfl⟩, fun hnil => ?_, ?_, hswapping.fallsBack.append hnot, ?_⟩
      · rw [Option.toList_some, List.length_append, List.length_singleton]
        omega
      · exact absurd hnil (List.append_ne_nil_of_right_ne_nil _ (List.cons_ne_nil _ _))
      · exact List.forall_mem_append.2 ⟨hswapping.tried, List.forall_mem_singleton.2 htried⟩
      · rw [Option.toList_some, scoredIn_append_singleton]
        exact hswapping.rejected.append hrejected
  · rintro t attempts ⟨hcount, hswapping⟩
    exact .fellBack (by omega) hswapping
  · refine ⟨?_, ⟨_, _, rfl, rfl⟩, fun _ => rfl, ?_, ?_, .nil⟩
    · rw [List.length_nil, Nat.zero_add]
    · intro attempt hattempt
      cases hattempt
    · intro pair hpair
      cases hpair

end Swap

end Individual

end SymbolicRegression
