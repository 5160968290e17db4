/-
# What a run is answered

A run puts one question after the other, and each is answered from the words.  The answers are
listed here, so that what a run draws can be counted.  Every attempt of a search or of a hoist
draws one position, every attempt of a recombination one of each individual, and they are the
places that its note tells.

* `Draw.answers` : the answers that a run is given;
* `Draw.answers_bind` : one computation after the other;
* `Draw.drawn` : those that are positions;
* `Draw.answers_retryNoting` : what holds of a step and its note holds of all of them;
* `DrawnFrom`, `DrawnInPairs` : an answer chooses the place of an attempt;
* `Individual.drawn_searchEdit`, `Individual.answers_mutateHoist`,
  `Individual.answers_recombine` : **the positions that are drawn are the places of the
  attempts.**
-/
import SymbolicRegression.Proofs.Attempts

namespace SymbolicRegression

/-! ## Answers -/

namespace Draw

/-- An answer to a question. -/
inductive Answer
  | chance (yes : Bool)
  | index (i : Nat)
  | position (i : Nat)
  | between (x : Float)

/-- Whether the question was for a position. -/
def Answer.isPosition : Answer → Bool
  | .position _ => true
  | _ => false

variable {α β τ ν σ : Type} [WordSource σ]

/-- The answers that a run is given, in their order. -/
def answers : Draw α → σ → List Answer
  | .done _, _ => []
  | .chance p next, s => let (b, s) := chanceFrom p s; .chance b :: (next b).answers s
  | .index n next, s => let (i, s) := indexFrom n s; .index i :: (next i).answers s
  | .position n next, s => let (i, s) := positionFrom n s; .position i :: (next i).answers s
  | .between low high next, s =>
      let (x, s) := betweenFrom low high s
      .between x :: (next x).answers s

/-- What is done afterwards is answered afterwards. -/
theorem answers_bind (d : Draw α) (f : α → Draw β) (s : σ) :
    (d.bind f).answers s = d.answers s ++ (f (d.run s).1).answers (d.run s).2 := by
  induction d generalizing s with
  | done a => rfl
  | chance p next ih => simp only [bind, run, answers, ih, List.cons_append]
  | index n next ih => simp only [bind, run, answers, ih, List.cons_append]
  | position n next ih => simp only [bind, run, answers, ih, List.cons_append]
  | between low high next ih => simp only [bind, run, answers, ih, List.cons_append]

/-- Nothing is asked for the sake of a function of the result. -/
theorem answers_map (f : α → β) (d : Draw α) (s : σ) : (f <$> d).answers s = d.answers s := by
  rw [map_eq, answers_bind]
  exact List.append_nil _

/-- A member of a list is chosen by one answer, and where there is none nothing is asked. -/
theorem answers_element? (xs : List α) (s : σ) :
    (xs = [] ∧ (element? xs).answers s = [] ∧ ((element? xs).run s).1 = none) ∨
      ∃ i x, xs[i]? = some x ∧ (element? xs).answers s = [.position i] ∧
        ((element? xs).run s).1 = some x := by
  cases xs with
  | nil => exact .inl ⟨rfl, rfl, rfl⟩
  | cons x rest =>
    have hbelow : (positionFrom (rest.length + 1) s).1 < (x :: rest).length :=
      positionFrom_lt (Nat.succ_pos _) s
    exact .inr ⟨_, _, List.getElem?_eq_getElem hbelow, rfl, List.getElem?_eq_getElem hbelow⟩

/-! ## Positions -/

/-- The positions that a run draws, as indices into the lists that they are drawn from. -/
def drawn (d : Draw α) (s : σ) : List Answer := (d.answers s).filter Answer.isPosition

/-- A composed computation draws what its first part draws and then what its second part
draws. -/
theorem drawn_bind (d : Draw α) (f : α → Draw β) (s : σ) :
    (d.bind f).drawn s = d.drawn s ++ (f (d.run s).1).drawn (d.run s).2 := by
  rw [drawn, answers_bind, List.filter_append]
  rfl

/-- No run draws a position. -/
def DrawsNone (d : Draw α) : Prop := ∀ {σ : Type} [WordSource σ] (s : σ), d.drawn s = []

/-- A result draws no position. -/
theorem drawsNone_pure (a : α) : (pure a : Draw α).DrawsNone := by
  intro σ _ s
  rfl

/-- A question of yes or no draws no position. -/
theorem drawsNone_flip (p : Float) : (flip p).DrawsNone := by
  intro σ _ s
  rfl

/-- A question for a number below a bound draws no position. -/
theorem drawsNone_number (n : Nat) : (number n).DrawsNone := by
  intro σ _ s
  rfl

/-- The index of a member is not a position. -/
theorem drawsNone_member {xs : List α} (h : xs ≠ []) : (member xs h).DrawsNone := by
  intro σ _ s
  rfl

/-- Steps that draw no positions draw none together. -/
theorem DrawsNone.bind {d : Draw α} {f : α → Draw β} (h : d.DrawsNone)
    (h' : ∀ a, (f a).DrawsNone) : (d.bind f).DrawsNone := by
  intro σ _ s
  rw [drawn_bind, h, h' (d.run s).1, List.nil_append]

/-! ## Answers and notes -/

/-- Keeping notes asks nothing. -/
theorem answers_keepNotes (step : τ → Draw ((α ⊕ τ) × Option ν)) (t : τ × List ν) (s : σ) :
    (keepNotes step t).answers s = (step t.1).answers s := by
  rw [keepNotes, bind_eq, answers_bind]
  exact List.append_nil _

/-- The notes of a step come after those from before. -/
theorem run_keepNotes (step : τ → Draw ((α ⊕ τ) × Option ν)) (t : τ × List ν) (s : σ) :
    (keepNotes step t).run s =
      (((step t.1).run s).1.1.map (fun result => (result, t.2 ++ ((step t.1).run s).1.2.toList))
        (fun next => (next, t.2 ++ ((step t.1).run s).1.2.toList)), ((step t.1).run s).2) := by
  rw [keepNotes, bind_eq, run_bind]
  rfl

/-- **What holds of the answers to each step and of its note holds of all answers and notes**,
if it adds up. -/
theorem answers_retryNoting {step : τ → Draw ((α ⊕ τ) × Option ν)} {giveUp : τ → α}
    (R : List Answer → List ν → Prop) (hnil : R [] [])
    (happend : ∀ {answers answers' notes notes'}, R answers notes → R answers' notes' →
      R (answers ++ answers') (notes ++ notes'))
    (hstep : ∀ t (s : σ), R ((step t).answers s) ((step t).run s).1.2.toList)
    (tries : Nat) (t : τ) (s : σ) :
    R ((retryNoting step giveUp tries t).answers s)
      ((retryNoting step giveUp tries t).run s).1.2 := by
  -- on the way there are notes already, to which those that follow are added
  have hall : ∀ tries t (notes : List ν) (s : σ), ∃ more,
      ((retry (keepNotes step) (fun t => (giveUp t.1, t.2)) tries (t, notes)).run s).1.2 =
        notes ++ more ∧
      R ((retry (keepNotes step) (fun t => (giveUp t.1, t.2)) tries (t, notes)).answers s)
        more := by
    intro tries
    induction tries with
    | zero =>
      intro t notes s
      exact ⟨[], (List.append_nil notes).symm, hnil⟩
    | succ tries ih =>
      intro t notes s
      have hfirst := hstep t s
      rw [retry, bind_eq, run_bind, answers_bind, run_keepNotes, answers_keepNotes]
      obtain ⟨⟨⟨outcome, note⟩, s'⟩, hrun⟩ : ∃ r, (step t).run s = r := ⟨_, rfl⟩
      rw [hrun] at hfirst ⊢
      cases outcome with
      | inl result =>
        refine ⟨note.toList, rfl, ?_⟩
        show R ((step t).answers s ++ []) note.toList
        rwa [List.append_nil]
      | inr t' =>
        obtain ⟨more, hnotes, hmore⟩ := ih t' (notes ++ note.toList) s'
        refine ⟨note.toList ++ more, ?_, happend hfirst hmore⟩
        rw [← List.append_assoc]
        exact hnotes
  obtain ⟨more, hnotes, hmore⟩ := hall tries t [] s
  rw [retryNoting, hnotes]
  exact hmore

end Draw

/-! ## The places of attempts -/

/-- The answer chooses, among some paths, the place of an attempt. -/
def DrawnFrom (paths : List Path) (answer : Draw.Answer) (attempt : EditAttempt) : Prop :=
  ∃ i, answer = .position i ∧ paths[i]? = some attempt.place

/-- The answers choose, two by two, the places of some attempts. -/
inductive DrawnInPairs (paths₁ paths₂ : List Path) : List Draw.Answer → List SwapAttempt → Prop
  | nil : DrawnInPairs paths₁ paths₂ [] []
  | cons {i₁ i₂ : Nat} {answers : List Draw.Answer} {attempt : SwapAttempt}
      {attempts : List SwapAttempt} (hfirst : paths₁[i₁]? = some attempt.place.1)
      (hsecond : paths₂[i₂]? = some attempt.place.2)
      (hrest : DrawnInPairs paths₁ paths₂ answers attempts) :
      DrawnInPairs paths₁ paths₂ (.position i₁ :: .position i₂ :: answers) (attempt :: attempts)

namespace DrawnInPairs

variable {paths₁ paths₂ : List Path} {answers answers' : List Draw.Answer}
  {attempts attempts' : List SwapAttempt}

/-- More attempts are drawn after those before. -/
theorem append (h : DrawnInPairs paths₁ paths₂ answers attempts)
    (h' : DrawnInPairs paths₁ paths₂ answers' attempts') :
    DrawnInPairs paths₁ paths₂ (answers ++ answers') (attempts ++ attempts') := by
  induction h with
  | nil => exact h'
  | cons hfirst hsecond _ ih => exact .cons hfirst hsecond ih

/-- There are two answers for every attempt. -/
theorem length_eq (h : DrawnInPairs paths₁ paths₂ answers attempts) :
    answers.length = 2 * attempts.length := by
  induction h with
  | nil => rfl
  | cons _ _ _ ih =>
    simp only [List.length_cons]
    omega

end DrawnInPairs

namespace Individual

variable {i a b : Individual} {σ : Type} [WordSource σ]

/-- A random leaf draws no position. -/
theorem drawsNone_randomLeaf (i : Individual) : i.randomLeaf.DrawsNone := by
  refine Draw.DrawsNone.bind (Draw.drawsNone_flip _) fun yes => ?_
  cases yes with
  | true => exact Draw.DrawsNone.bind (Draw.drawsNone_number _) fun _ => Draw.drawsNone_pure _
  | false => exact Draw.DrawsNone.bind (Draw.drawsNone_member _) fun _ => Draw.drawsNone_pure _

/-- A random expression draws no position. -/
theorem drawsNone_randomExpr (i : Individual) (levels : Nat) :
    (i.randomExpr levels).DrawsNone := by
  induction levels with
  | zero => exact i.drawsNone_randomLeaf
  | succ levels ih =>
    refine Draw.DrawsNone.bind (Draw.drawsNone_flip _) fun branch => ?_
    cases branch with
    | false => exact i.drawsNone_randomLeaf
    | true =>
      refine Draw.DrawsNone.bind (Draw.drawsNone_flip _) fun binary => ?_
      cases binary with
      | true =>
        refine Draw.DrawsNone.bind (Draw.drawsNone_member _) fun op => ?_
        refine Draw.DrawsNone.bind ih fun left => ?_
        exact Draw.DrawsNone.bind ih fun right => Draw.drawsNone_pure _
      | false =>
        refine Draw.DrawsNone.bind (Draw.drawsNone_member _) fun op => ?_
        exact Draw.DrawsNone.bind ih fun operand => Draw.drawsNone_pure _

/-- A fresh subtree needs no other position. -/
theorem drawsNone_freshSubtree (i : Individual) (path : Path) : (i.freshSubtree path).DrawsNone :=
  Draw.DrawsNone.bind (i.drawsNone_randomExpr _) fun _ => Draw.drawsNone_pure _

/-- The mean of the values at a position needs no other one either. -/
theorem drawsNone_collapsed? (i : Individual) (path : Path) :
    (return i.collapsed? path : Draw (Option Expr)).DrawsNone :=
  Draw.drawsNone_pure _

section Search

variable {propose : Individual → Path → Draw (Option Expr)}

/-- One try to edit draws the place of its attempt. -/
theorem drawn_tryEditNoting (hpropose : ∀ j path, (propose j path).DrawsNone) (paths : List Path)
    (fitness : Float) (t : Progress) (s : σ) :
    List.Forall₂ (DrawnFrom paths) ((tryEditNoting propose paths fitness t).drawn s)
      ((tryEditNoting propose paths fitness t).run s).1.2.toList := by
  rw [tryEditNoting, Draw.bind_eq, Draw.drawn_bind, Draw.run_bind]
  rcases Draw.answers_element? paths s with ⟨-, hanswers, hrun⟩ | ⟨k, path, hpath, hanswers, hrun⟩
  · rw [hrun, Draw.drawn, hanswers]
    exact .nil
  · rw [hrun, Draw.drawn, hanswers]
    simp only
    rw [Draw.bind_eq, Draw.drawn_bind, Draw.run_bind, hpropose]
    cases ((propose t.individual path).run ((Draw.element? paths).run s).2).1 with
    | none => exact .cons ⟨k, rfl, hpath⟩ .nil
    | some new => exact .cons ⟨k, rfl, hpath⟩ .nil

/-- **The positions that a search draws are the places of its attempts.** -/
theorem drawn_searchEdit (hpropose : ∀ j path, (propose j path).DrawsNone)
    (i : Individual) (exhausted : Nat → Event) (s : σ) :
    List.Forall₂ (DrawnFrom i.locations) ((i.searchEdit propose exhausted).drawn s)
      ((i.searchEditNoting propose exhausted).run s).1.2 := by
  rw [← fst_searchEditNoting, Draw.drawn, Draw.answers_map]
  refine Draw.answers_retryNoting
    (fun answers attempts => List.Forall₂ (DrawnFrom i.locations)
      (answers.filter Draw.Answer.isPosition) attempts) .nil ?_ ?_ _ _ s
  · intro answers answers' attempts attempts' h h'
    rw [List.filter_append]
    exact List.rel_append h h'
  · exact drawn_tryEditNoting hpropose i.locations i.fitness

end Search

/-- One try to hoist draws the place of its attempt, and nothing else. -/
theorem answers_tryHoistNoting (i : Individual) (s : σ) :
    List.Forall₂ (DrawnFrom i.locations) (i.tryHoistNoting.answers s)
      (i.tryHoistNoting.run s).1.2.toList := by
  rw [tryHoistNoting, Draw.bind_eq, Draw.answers_bind, Draw.run_bind]
  rcases Draw.answers_element? i.locations s with
    ⟨-, hanswers, hrun⟩ | ⟨k, path, hpath, hanswers, hrun⟩
  · rw [hrun, hanswers]
    exact .nil
  · rw [hrun, hanswers]
    cases hget : i.get? path with
    | none =>
      simp only [hget]
      exact .cons ⟨k, rfl, hpath⟩ .nil
    | some e =>
      cases hleaf : e.isLeaf with
      | true =>
        simp only [hget, hleaf, if_true]
        exact .cons ⟨k, rfl, hpath⟩ .nil
      | false =>
        simp only [hget, hleaf, Bool.false_eq_true, if_false]
        exact .cons ⟨k, rfl, hpath⟩ .nil

/-- **What a hoist is answered are the places of its attempts.** -/
theorem answers_mutateHoist (i : Individual) (s : σ) :
    List.Forall₂ (DrawnFrom i.locations) (i.mutateHoist.answers s)
      (i.mutateHoistNoting.run s).1.2 := by
  rw [← fst_mutateHoistNoting, Draw.answers_map]
  refine Draw.answers_retryNoting (List.Forall₂ (DrawnFrom i.locations)) .nil ?_ ?_ _ _ s
  · intro answers answers' attempts attempts' h h'
    exact List.rel_append h h'
  · intro _
    exact i.answers_tryHoistNoting

/-- One try to exchange draws two positions, one of each individual. -/
theorem answers_tryExchangeNoting {paths₁ paths₂ : List Path} (h₁ : paths₁ ≠ [])
    (h₂ : paths₂ ≠ []) (maxDepth : Nat) (t : Offspring) (s : σ) :
    DrawnInPairs paths₁ paths₂ ((tryExchangeNoting maxDepth paths₁ paths₂ t).answers s)
      ((tryExchangeNoting maxDepth paths₁ paths₂ t).run s).1.2.toList := by
  rw [tryExchangeNoting]
  simp only [Draw.bind_eq, Draw.answers_bind, Draw.run_bind]
  rcases Draw.answers_element? paths₁ s with ⟨hnil, -⟩ | ⟨k₁, path₁, hpath₁, hanswers₁, hrun₁⟩
  · exact absurd hnil h₁
  · rcases Draw.answers_element? paths₂ ((Draw.element? paths₁).run s).2 with
      ⟨hnil, -⟩ | ⟨k₂, path₂, hpath₂, hanswers₂, hrun₂⟩
    · exact absurd hnil h₂
    · rw [hanswers₁, hanswers₂, hrun₁, hrun₂]
      exact .cons hpath₁ hpath₂ .nil

/-- **What a recombination is answered are the places of its attempts**, two answers each. -/
theorem answers_recombine (ha : a.locations ≠ []) (hb : b.locations ≠ []) (s : σ) :
    DrawnInPairs a.locations b.locations ((a.recombine b).answers s)
      ((a.recombineNoting b).run s).1.2 := by
  rw [← fst_recombineNoting, Draw.answers_map]
  exact Draw.answers_retryNoting (DrawnInPairs a.locations b.locations) .nil DrawnInPairs.append
    (answers_tryExchangeNoting ha hb _) _ _ s

end Individual

end SymbolicRegression
