/-
# Recombination

Two individuals exchange a subtree each.  The exchange must keep both within the
smaller of their depth limits and give both a finite fitness.

* `Offspring` : two individuals and what happened on the way;
* `Individual.recombine` : exchange random subtrees.
-/
import SymbolicRegression.Individual.Generation

namespace SymbolicRegression

/-- Two individuals between two tries to exchange subtrees, or at the end. -/
structure Offspring where
  first : Individual
  second : Individual
  /-- What happened so far. -/
  log : List Event

namespace Individual

/-- Whether subtrees at two positions may be exchanged: each stays within the
limit at the position of the other. -/
def exchangeFits (maxDepth : Nat) (path₁ path₂ : Path) (e₁ e₂ : Expr) : Bool :=
  path₁.length + e₂.height ≤ maxDepth && path₂.length + e₁.height ≤ maxDepth

/-- Exchange the subtrees at two positions and rescore both individuals.  Two
finite fitnesses end the search.  Otherwise both subtrees go back to where they
were, but each individual keeps the fitness that it had with the other's subtree. -/
def exchangeAt (maxDepth : Nat) (t : Offspring) (path₁ path₂ : Path) : Offspring ⊕ Offspring :=
  match t.first.get? path₁, t.second.get? path₂ with
  | some e₁, some e₂ =>
      if exchangeFits maxDepth path₁ path₂ e₁ e₂ then
        match t.first.exchange? path₁ e₂, t.second.exchange? path₂ e₁ with
        | some (old₁, first), some (old₂, second) =>
            let first := first.rescore
            let second := second.rescore
            let log := t.log ++ first.log ++ second.log
            if first.individual.isValid && second.individual.isValid then
              .inl ⟨first.individual, second.individual, log⟩
            else .inr ⟨first.individual.put path₁ old₁, second.individual.put path₂ old₂, log⟩
        | _, _ => .inr ⟨t.first.put path₁ e₂, t.second.put path₂ e₁, t.log⟩
      else .inr t
  | _, _ => .inr t

/-- One try: an exchange at a random one of some positions of each individual. -/
def tryExchange (maxDepth : Nat) (paths₁ paths₂ : List Path) (t : Offspring) :
    Draw (Offspring ⊕ Offspring) := do
  let path₁? ← Draw.element? paths₁
  let path₂? ← Draw.element? paths₂
  match path₁?, path₂? with
  | some path₁, some path₂ => return exchangeAt maxDepth t path₁ path₂
  | _, _ => return .inl t

/-- Two individuals that came from `a` and `b` by exchanging a random subtree,
or `a` and `b` themselves when all attempts of `a` are used up. -/
def recombine (a b : Individual) : Draw Offspring :=
  Draw.retry
    (tryExchange (min a.settings.maxDepth b.settings.maxDepth) a.locations b.locations)
    (fun t => ⟨a, b, t.log ++ [.recombinationExhausted a.settings.attempts]⟩)
    a.settings.attempts ⟨a, b, []⟩

end Individual

end SymbolicRegression
