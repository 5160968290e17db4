/-
# Noting what a repeated step does

What a computation gives does not tell what it tried on the way.  A step can be made to
note that beside its outcome; a repetition of the step then has a list of notes beside its
result.  Without the notes it is the repetition that one had before, question by question,
so what is proved of the notes is true of the computation itself.

* `Draw.run_map`, `Draw.wellPosed_map` : a function applied to the results changes nothing else;
* `Draw.map_retry` : steps that correspond give repetitions that correspond;
* `Draw.retryNoting` : a step taken again, with notes;
* `Draw.fst_retryNoting` : the notes can be forgotten;
* `Draw.possible_retryNoting` : the rule for trying again, with notes.
-/
import SymbolicRegression.Random.Draw

namespace SymbolicRegression

namespace Draw

variable {α β τ τ' ν : Type}

/-! ## Functions of a result -/

/-- Changing the result of a computation changes the result of its runs. -/
theorem run_map {σ : Type} [WordSource σ] (f : α → β) (d : Draw α) (s : σ) :
    (f <$> d).run s = (f (d.run s).1, (d.run s).2) := by
  rw [map_eq, run_bind]
  rfl

/-- Changing the result of a computation changes none of its questions. -/
theorem wellPosed_map {f : α → β} {d : Draw α} : (f <$> d).WellPosed ↔ d.WellPosed := by
  rw [map_eq, wellPosed_bind]
  exact ⟨fun h => h.1, fun h => ⟨h, fun _ _ => trivial⟩⟩

/-- **Steps that correspond give repetitions that correspond.** -/
theorem map_retry {step : τ → Draw (α ⊕ τ)} {step' : τ' → Draw (β ⊕ τ')} {giveUp : τ → α}
    {giveUp' : τ' → β} {f : α → β} {g : τ → τ'} (hstep : ∀ t, Sum.map f g <$> step t = step' (g t))
    (hgive : ∀ t, f (giveUp t) = giveUp' (g t)) (tries : Nat) (t : τ) :
    f <$> retry step giveUp tries t = retry step' giveUp' tries (g t) := by
  induction tries generalizing t with
  | zero => rw [retry, retry, map_pure, hgive]
  | succ tries ih =>
    rw [retry, retry, ← hstep, bind_map_left, map_bind]
    refine bind_congr fun outcome => ?_
    cases outcome with
    | inl result => exact map_pure f result
    | inr t' => exact ih t'

/-! ## Notes -/

/-- A step that may note something, as one that adds to a list of notes. -/
def keepNotes (step : τ → Draw ((α ⊕ τ) × Option ν)) (t : τ × List ν) :
    Draw ((α × List ν) ⊕ (τ × List ν)) := do
  let (outcome, note) ← step t.1
  let notes := t.2 ++ note.toList
  return outcome.map (fun result => (result, notes)) (fun next => (next, notes))

/-- Take a step until it ends in a result, at most `tries` times, and keep what it notes. -/
def retryNoting (step : τ → Draw ((α ⊕ τ) × Option ν)) (giveUp : τ → α) (tries : Nat) (t : τ) :
    Draw (α × List ν) :=
  retry (keepNotes step) (fun t => (giveUp t.1, t.2)) tries (t, [])

/-- **The notes can be forgotten.** -/
theorem fst_retryNoting (step : τ → Draw ((α ⊕ τ) × Option ν)) (giveUp : τ → α) (tries : Nat)
    (t : τ) :
    Prod.fst <$> retryNoting step giveUp tries t =
      retry (fun t => Prod.fst <$> step t) giveUp tries t := by
  refine map_retry (f := Prod.fst) (g := fun t : τ × List ν => t.1) ?_ (fun _ => rfl) tries (t, [])
  rintro ⟨t, notes⟩
  rw [keepNotes, map_bind, map_eq]
  refine bind_congr fun outcome => ?_
  obtain ⟨outcome, note⟩ := outcome
  cases outcome with
  | inl result => rfl
  | inr t' => rfl

/-- **The rule for trying again, with notes.**  An invariant, which may depend on the number
of tries that are left and on the notes so far, carries over from step to step. -/
theorem possible_retryNoting {step : τ → Draw ((α ⊕ τ) × Option ν)} {giveUp : τ → α}
    (Inv : Nat → τ → List ν → Prop) {Q : α → List ν → Prop}
    (hresult : ∀ tries t notes result note, Inv (tries + 1) t notes →
      (step t).Possible (.inl result, note) → Q result (notes ++ note.toList))
    (hnext : ∀ tries t notes t' note, Inv (tries + 1) t notes →
      (step t).Possible (.inr t', note) → Inv tries t' (notes ++ note.toList))
    (hgive : ∀ t notes, Inv 0 t notes → Q (giveUp t) notes)
    {tries : Nat} {t : τ} (ht : Inv tries t []) {result : α} {notes : List ν}
    (h : (retryNoting step giveUp tries t).Possible (result, notes)) : Q result notes := by
  refine possible_retry (fun tries t => Inv tries t.1 t.2) (Q := fun r => Q r.1 r.2)
    ?_ ?_ ?_ ht h
  · rintro tries ⟨t, notes⟩ ⟨result, notes'⟩ ht hstep
    obtain ⟨⟨outcome, note⟩, hpossible, h⟩ := possible_bind.1 hstep
    cases outcome with
    | inl found =>
      cases possible_pure.1 h
      exact hresult tries t notes _ note ht hpossible
    | inr t' => cases possible_pure.1 h
  · rintro tries ⟨t, notes⟩ ⟨t', notes'⟩ ht hstep
    obtain ⟨⟨outcome, note⟩, hpossible, h⟩ := possible_bind.1 hstep
    cases outcome with
    | inl found => cases possible_pure.1 h
    | inr next =>
      cases possible_pure.1 h
      exact hnext tries t notes _ note ht hpossible
  · rintro ⟨t, notes⟩ ht
    exact hgive t notes ht

end Draw

end SymbolicRegression
