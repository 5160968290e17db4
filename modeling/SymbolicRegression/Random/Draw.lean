/-
# Random computations

A random computation is a decision tree: at each inner node it asks a question
and goes on with the answer.  What it asks is part of its value, so that one can
speak of the questions it may put and of the results it may have, apart from any
source of randomness.

* `Draw` : the trees, a monad;
* `Draw.retry` : a step taken again until it has a result;
* `Draw.run` : the result when the answers are made from words;
* `Draw.Possible` : the results under some answers;
* `Draw.WellPosed` : every question that may be put makes sense;
* `Draw.possible_run` : a run of a well-posed computation has a possible result.
-/
import SymbolicRegression.Random.Answer

namespace SymbolicRegression

/-- A computation with random choices. -/
inductive Draw (α : Type) : Type
  /-- A result, with nothing more to ask. -/
  | done (result : α)
  /-- Ask for yes or no, where yes has probability `p`. -/
  | chance (p : Float) (next : Bool → Draw α)
  /-- Ask for a number below `n`. -/
  | index (n : Nat) (next : Nat → Draw α)
  /-- Ask for a position in a list of length `n`. -/
  | position (n : Nat) (next : Nat → Draw α)
  /-- Ask for a double from `low` to `high`. -/
  | between (low high : Float) (next : Float → Draw α)

namespace Draw

variable {α β : Type}

/-- Go on with each result. -/
def bind : Draw α → (α → Draw β) → Draw β
  | .done a, f => f a
  | .chance p next, f => .chance p fun b => (next b).bind f
  | .index n next, f => .index n fun i => (next i).bind f
  | .position n next, f => .position n fun i => (next i).bind f
  | .between low high next, f => .between low high fun x => (next x).bind f

instance : Monad Draw where
  pure := .done
  bind := bind

/-- Going on with each result as it is changes nothing. -/
theorem bind_done (d : Draw α) : d.bind .done = d := by
  induction d with
  | done a => rfl
  | chance p next ih => exact congrArg (chance p) (funext ih)
  | index n next ih => exact congrArg (index n) (funext ih)
  | position n next ih => exact congrArg (position n) (funext ih)
  | between low high next ih => exact congrArg (between low high) (funext ih)

/-- Going on twice is going on once with both steps. -/
theorem bind_assoc {γ : Type} (d : Draw α) (f : α → Draw β) (g : β → Draw γ) :
    (d.bind f).bind g = d.bind fun a => (f a).bind g := by
  induction d with
  | done a => rfl
  | chance p next ih => exact congrArg (chance p) (funext ih)
  | index n next ih => exact congrArg (index n) (funext ih)
  | position n next ih => exact congrArg (position n) (funext ih)
  | between low high next ih => exact congrArg (between low high) (funext ih)

/-- One step after another is going on with each result. -/
theorem bind_eq (d : Draw α) (f : α → Draw β) : d >>= f = d.bind f := rfl

/-- A function of the result changes the results and nothing else. -/
theorem map_eq (f : α → β) (d : Draw α) : f <$> d = d.bind fun a => .done (f a) := rfl

instance : LawfulMonad Draw := LawfulMonad.mk' Draw
  (fun d => bind_done d) (fun _ _ => rfl) (fun d f g => bind_assoc d f g)

/-! ## Asking -/

/-- Yes with probability `p`. -/
def flip (p : Float) : Draw Bool := .chance p .done

/-- A number below `n`. -/
def number (n : Nat) : Draw Nat := .index n .done

/-- A member of a list that is not empty. -/
def member (xs : List α) (h : xs ≠ []) : Draw α :=
  .index xs.length fun i => .done (xs[i]?.getD (xs.head h))

/-- A member of a list by its position, if there is one; of an empty list nothing is asked. -/
def element? (xs : List α) : Draw (Option α) :=
  match xs with
  | [] => .done none
  | x :: rest => .position (rest.length + 1) fun i => .done (x :: rest)[i]?

/-- A double from `low` to `high`. -/
def uniform (low high : Float) : Draw Float := .between low high .done

/-! ## Trying again -/

/-- Take a step until it ends in a result, at most `tries` times, and then give
up.  Each step goes on from the state that the one before it left. -/
def retry {τ : Type} (step : τ → Draw (α ⊕ τ)) (giveUp : τ → α) : Nat → τ → Draw α
  | 0, t => return giveUp t
  | tries + 1, t => do
      match ← step t with
      | .inl result => return result
      | .inr t => retry step giveUp tries t

/-! ## Running on words -/

/-- The result when each answer is made from the words of a source, and what is left of the
source. -/
def run {σ : Type} [WordSource σ] : Draw α → σ → α × σ
  | .done a, s => (a, s)
  | .chance p next, s => let (b, s) := chanceFrom p s; (next b).run s
  | .index n next, s => let (i, s) := indexFrom n s; (next i).run s
  | .position n next, s => let (i, s) := positionFrom n s; (next i).run s
  | .between low high next, s => let (x, s) := betweenFrom low high s; (next x).run s

/-- A run of a composed computation is a run of the first part and then of the second, on
the words that the first has left. -/
theorem run_bind {σ : Type} [WordSource σ] (d : Draw α) (f : α → Draw β) (s : σ) :
    (d.bind f).run s = (f (d.run s).1).run (d.run s).2 := by
  induction d generalizing s with
  | done a => rfl
  | chance p next ih => simp only [bind, run, ih]
  | index n next ih => simp only [bind, run, ih]
  | position n next ih => simp only [bind, run, ih]
  | between low high next ih => simp only [bind, run, ih]

/-! ## Possible results and sensible questions -/

/-- The results that a computation has under some answers.  An answer below a
bound is a number below it, and an answer in an interval is one that a word chooses. -/
def Possible : Draw α → α → Prop
  | .done a, result => a = result
  | .chance p next, result => ∃ b, ChanceAllows p b ∧ (next b).Possible result
  | .index n next, result => ∃ i, i < n ∧ (next i).Possible result
  | .position n next, result => ∃ i, i < n ∧ (next i).Possible result
  | .between low high next, result =>
      ∃ word, (next (pointBetween low high word)).Possible result

/-- Whether every question that may be put makes sense: a probability from zero
to one, or a choice among at least one. -/
def WellPosed : Draw α → Prop
  | .done _ => True
  | .chance p next => (0.0 ≤ p ∧ p ≤ 1.0) ∧ ∀ b, ChanceAllows p b → (next b).WellPosed
  | .index n next => 0 < n ∧ ∀ i, i < n → (next i).WellPosed
  | .position n next => 0 < n ∧ ∀ i, i < n → (next i).WellPosed
  | .between low high next =>
    low ≤ high ∧ ∀ word, (next (pointBetween low high word)).WellPosed

/-- What is possible for a composed computation is possible for the second part after a
possible result of the first. -/
theorem possible_bind {d : Draw α} {f : α → Draw β} {b : β} :
    (d.bind f).Possible b ↔ ∃ a, d.Possible a ∧ (f a).Possible b := by
  induction d with
  | done a => simp [bind, Possible]
  | chance p next ih => simp only [bind, Possible, ih]; grind
  | index n next ih => simp only [bind, Possible, ih]; grind
  | position n next ih => simp only [bind, Possible, ih]; grind
  | between low high next ih => simp only [bind, Possible, ih]; grind

/-- A composed computation asks sensible questions if its first part does, and its second
after every result that is possible for the first. -/
theorem wellPosed_bind {d : Draw α} {f : α → Draw β} :
    (d.bind f).WellPosed ↔ d.WellPosed ∧ ∀ a, d.Possible a → (f a).WellPosed := by
  induction d with
  | done a => simp [bind, Possible, WellPosed]
  | chance p next ih => simp only [bind, Possible, WellPosed, ih]; grind
  | index n next ih => simp only [bind, Possible, WellPosed, ih]; grind
  | position n next ih => simp only [bind, Possible, WellPosed, ih]; grind
  | between low high next ih => simp only [bind, Possible, WellPosed, ih]; grind

theorem possible_pure {a b : α} : (pure a : Draw α).Possible b ↔ a = b := Iff.rfl

/-- **The rule for trying again.**  An invariant, which may depend on the number
of tries that are left, carries over from step to step.  What then follows of each
result, and of giving up, follows of the whole. -/
theorem possible_retry {τ : Type} {step : τ → Draw (α ⊕ τ)} {giveUp : τ → α}
    (Inv : Nat → τ → Prop) {Q : α → Prop}
    (hresult : ∀ tries t result, Inv (tries + 1) t → (step t).Possible (.inl result) → Q result)
    (hnext : ∀ tries t t', Inv (tries + 1) t → (step t).Possible (.inr t') → Inv tries t')
    (hgive : ∀ t, Inv 0 t → Q (giveUp t))
    {tries : Nat} {t : τ} (ht : Inv tries t) {result : α}
    (h : (retry step giveUp tries t).Possible result) : Q result := by
  induction tries generalizing t with
  | zero =>
    obtain rfl := possible_pure.1 h
    exact hgive t ht
  | succ tries ih =>
    obtain ⟨outcome, hstep, h⟩ := possible_bind.1 h
    cases outcome with
    | inl found =>
      obtain rfl := possible_pure.1 h
      exact hresult tries t _ ht hstep
    | inr t' => exact ih (hnext tries t t' ht hstep) h

/-- Trying again asks sensible questions if every step does. -/
theorem wellPosed_retry {τ : Type} {step : τ → Draw (α ⊕ τ)} {giveUp : τ → α} (Inv : τ → Prop)
    (hstep : ∀ t, Inv t → (step t).WellPosed)
    (hnext : ∀ t t', Inv t → (step t).Possible (.inr t') → Inv t')
    {t : τ} (ht : Inv t) (tries : Nat) : (retry step giveUp tries t).WellPosed := by
  induction tries generalizing t with
  | zero => trivial
  | succ tries ih =>
    refine wellPosed_bind.2 ⟨hstep t ht, fun outcome houtcome => ?_⟩
    cases outcome with
    | inl found => trivial
    | inr t' => exact ih (hnext t t' ht houtcome)

/-- A run of a well-posed computation has one of its possible results, whatever the words. -/
theorem possible_run {σ : Type} [WordSource σ] {d : Draw α} (h : d.WellPosed) (s : σ) :
    d.Possible (d.run s).1 := by
  induction d generalizing s with
  | done a => rfl
  | chance p next ih =>
    have allowed := chanceAllows_chanceFrom p s
    simp only [run, Possible]
    exact ⟨_, allowed, ih _ (h.2 _ allowed) _⟩
  | index n next ih =>
    have below := indexFrom_lt h.1 s
    simp only [run, Possible]
    exact ⟨_, below, ih _ (h.2 _ below) _⟩
  | position n next ih =>
    have below := positionFrom_lt h.1 s
    simp only [run, Possible]
    exact ⟨_, below, ih _ (h.2 _ below) _⟩
  | between low high next ih =>
    simp only [run, Possible, betweenFrom]
    exact ⟨_, ih _ (h.2 _) _⟩

/-! ## The answers to single questions -/

/-- The possible answers to a question of yes or no are those that its probability allows.
-/
theorem possible_flip {p : Float} {b : Bool} : (flip p).Possible b ↔ ChanceAllows p b := by
  simp [flip, Possible]

/-- Every member of a list can be drawn, and nothing else. -/
theorem possible_member {xs : List α} {h : xs ≠ []} {x : α} :
    (member xs h).Possible x ↔ x ∈ xs := by
  simp only [member, Possible, List.mem_iff_getElem?]
  constructor
  · rintro ⟨i, hi, hx⟩
    refine ⟨i, ?_⟩
    rw [List.getElem?_eq_getElem hi] at hx ⊢
    exact congrArg some hx
  · rintro ⟨i, hx⟩
    obtain ⟨hi, -⟩ := List.getElem?_eq_some_iff.1 hx
    exact ⟨i, hi, by rw [hx]; rfl⟩

/-- Of an empty list nothing can be drawn, and of any other every element and nothing else.
-/
theorem possible_element? {xs : List α} {result : Option α} :
    (element? xs).Possible result ↔
      (xs = [] ∧ result = none) ∨ ∃ x ∈ xs, result = some x := by
  cases xs with
  | nil => simp [element?, Possible, eq_comm]
  | cons x rest =>
    simp only [element?, Possible, reduceCtorEq, false_and, false_or]
    constructor
    · rintro ⟨i, hi, rfl⟩
      have hi : i < (x :: rest).length := by simpa using hi
      exact ⟨_, List.getElem_mem hi, List.getElem?_eq_getElem hi⟩
    · rintro ⟨y, hy, rfl⟩
      obtain ⟨i, hi, rfl⟩ := List.mem_iff_getElem.1 hy
      exact ⟨i, by simpa using hi, List.getElem?_eq_getElem hi⟩

theorem possible_element?_of_mem {xs : List α} {x : α} (h : x ∈ xs) :
    (element? xs).Possible (some x) :=
  possible_element?.2 (.inr ⟨x, h, rfl⟩)

/-- There is a sensible choice among the members of a list that is not empty. -/
theorem wellPosed_member {xs : List α} (h : xs ≠ []) : (member xs h).WellPosed :=
  ⟨List.length_pos_iff.2 h, fun _ _ => trivial⟩

/-- There is a sensible choice among the elements of any list, since of an empty one nothing
is asked. -/
theorem wellPosed_element? (xs : List α) : (element? xs).WellPosed := by
  cases xs with
  | nil => trivial
  | cons x rest => exact ⟨Nat.succ_pos _, fun _ _ => trivial⟩

end Draw

end SymbolicRegression
