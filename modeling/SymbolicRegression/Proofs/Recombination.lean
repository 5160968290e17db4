/-
# What a recombination can do

Two individuals exchange one subtree each, or nothing at all.  Rejected tries
leave their mark on the fitness of the individuals that are worked on, but not on
their expressions, and what comes out in the end shows neither.

* `Individual.exchangeAt_eq` : one try succeeds, or restores both expressions;
* `Individual.possible_recombine` : what a recombination can end in;
* `Recombined.perm_symbols` : operators and leaves are conserved over both individuals;
* `Individual.recombine_exchanges_or_keeps` : **an exact exchange or nothing**.
-/
import SymbolicRegression.Individual.Recombination
import SymbolicRegression.Proofs.Edit

namespace SymbolicRegression

/-- What a recombination can end in: the two individuals as they were, or both edited
by an exchange that fits the depth limits and gives both a finite fitness. -/
inductive Recombined (a b : Individual) : Offspring → Prop
  | kept (log : List Event) : Recombined a b ⟨a, b, log⟩
  | exchanged {o : Offspring} {path₁ path₂ : Path} {e₁ e₂ : Expr}
      (hfirst : a.EditedTo path₁ e₁ e₂ o.first) (hsecond : b.EditedTo path₂ e₂ e₁ o.second)
      (hfits : Individual.exchangeFits (min a.settings.maxDepth b.settings.maxDepth)
        path₁ path₂ e₁ e₂ = true)
      (hvalid₁ : o.first.isValid = true) (hvalid₂ : o.second.isValid = true) : Recombined a b o

namespace Individual

variable {a b : Individual} {o : Offspring}

/-! ## One try -/

/-- **One try succeeds, or restores both expressions.**  The fitnesses from before
the try do not matter, and those of a rejected try stay. -/
theorem exchangeAt_eq {root₁ root₂ root₁' root₂' e₁ e₂ : Expr} {path₁ path₂ : Path}
    (ha : a.root = some root₁) (hb : b.root = some root₂)
    (h₁ : Splice e₁ e₂ path₁ root₁ root₁') (h₂ : Splice e₂ e₁ path₂ root₂ root₂')
    (maxDepth : Nat) (f₁ f₂ : Float) (log : List Event) :
    exchangeAt maxDepth ⟨{ a with fitness := f₁ }, { b with fitness := f₂ }, log⟩ path₁ path₂ =
      if exchangeFits maxDepth path₁ path₂ e₁ e₂ then
        let first := ({ a with root := some root₁' } : Individual).rescore
        let second := ({ b with root := some root₂' } : Individual).rescore
        let log := log ++ first.log ++ second.log
        if first.individual.isValid && second.individual.isValid then
          .inl ⟨first.individual, second.individual, log⟩
        else
          .inr ⟨{ a with fitness := first.individual.fitness },
            { b with fitness := second.individual.fitness }, log⟩
      else .inr ⟨{ a with fitness := f₁ }, { b with fitness := f₂ }, log⟩ := by
  have hget₁ : ({ a with fitness := f₁ } : Individual).get? path₁ = some e₁ :=
    (get?_eq ha).trans (Expr.get?_of_splice h₁)
  have hget₂ : ({ b with fitness := f₂ } : Individual).get? path₂ = some e₂ :=
    (get?_eq hb).trans (Expr.get?_of_splice h₂)
  have hx₁ := exchange?_of_splice (i := { a with fitness := f₁ }) ha h₁
  have hx₂ := exchange?_of_splice (i := { b with fitness := f₂ }) hb h₂
  have hr₁ := rescore_with_fitness { a with root := some root₁' } f₁
  have hr₂ := rescore_with_fitness { b with root := some root₂' } f₂
  -- what a rejected try displaces goes back to where it was
  have hput₁ := put_of_splice_of_rescore ha h₁
  have hput₂ := put_of_splice_of_rescore hb h₂
  rw [exchangeAt]
  simp only [hget₁, hget₂, hx₁, hx₂]
  rw [hr₁, hr₂, hput₁, hput₂]

/-- Where a search for an exchange stands between two tries: both individuals have
their expressions, and before the first try their fitnesses too. -/
def Pending (a b : Individual) (t : Offspring) : Prop :=
  ∃ f₁ f₂ log, t = ⟨{ a with fitness := f₁ }, { b with fitness := f₂ }, log⟩ ∧
    (a.locations = [] ∨ b.locations = [] → f₁ = a.fitness ∧ f₂ = b.fitness)

/-- What one try can end in: the end of the search, or a state from which the
search goes on. -/
theorem possible_tryExchange {t : Offspring} (ht : Pending a b t)
    {outcome : Offspring ⊕ Offspring}
    (h : (tryExchange (min a.settings.maxDepth b.settings.maxDepth) a.locations b.locations
      t).Possible outcome) :
    (∃ o, outcome = .inl o ∧ Recombined a b o) ∨ ∃ t', outcome = .inr t' ∧ Pending a b t' := by
  obtain ⟨f₁, f₂, log, rfl, hfresh⟩ := ht
  obtain ⟨path₁?, hpath₁, h⟩ := Draw.possible_bind.1 h
  obtain ⟨path₂?, hpath₂, h⟩ := Draw.possible_bind.1 h
  -- without positions the first try is the only one, so the fitnesses are still there
  have hkept (hnil : a.locations = [] ∨ b.locations = []) :
      Recombined a b ⟨{ a with fitness := f₁ }, { b with fitness := f₂ }, log⟩ := by
    obtain ⟨rfl, rfl⟩ := hfresh hnil
    exact .kept log
  rcases Draw.possible_element?.1 hpath₁ with ⟨hnil, rfl⟩ | ⟨path₁, hmem₁, rfl⟩
  · obtain rfl := Draw.possible_pure.1 h
    exact .inl ⟨_, rfl, hkept (.inl hnil)⟩
  · rcases Draw.possible_element?.1 hpath₂ with ⟨hnil, rfl⟩ | ⟨path₂, hmem₂, rfl⟩
    · obtain rfl := Draw.possible_pure.1 h
      exact .inl ⟨_, rfl, hkept (.inr hnil)⟩
    · obtain rfl := Draw.possible_pure.1 h
      have hsome : ¬ (a.locations = [] ∨ b.locations = []) := by
        rintro (hnil | hnil)
        · rw [hnil] at hmem₁
          cases hmem₁
        · rw [hnil] at hmem₂
          cases hmem₂
      obtain ⟨root₁, e₁, ha, he₁⟩ := exists_get?_of_mem_locations hmem₁
      obtain ⟨root₂, e₂, hb, he₂⟩ := exists_get?_of_mem_locations hmem₂
      obtain ⟨root₁', h₁⟩ := Expr.exists_splice_of_get? he₁ e₂
      obtain ⟨root₂', h₂⟩ := Expr.exists_splice_of_get? he₂ e₁
      rw [exchangeAt_eq ha hb h₁ h₂]
      split
      · rename_i hfits
        simp only
        split
        · rename_i hvalid
          rw [Bool.and_eq_true] at hvalid
          have hfirst : a.EditedTo path₁ e₁ e₂ _ := ⟨root₁, root₁', ha, h₁, rfl⟩
          have hsecond : b.EditedTo path₂ e₂ e₁ _ := ⟨root₂, root₂', hb, h₂, rfl⟩
          exact .inl ⟨_, rfl, .exchanged hfirst hsecond hfits hvalid.1 hvalid.2⟩
        · exact .inr ⟨_, rfl, _, _, _, rfl, fun hnil => absurd hnil hsome⟩
      · exact .inr ⟨_, rfl, _, _, _, rfl, fun hnil => absurd hnil hsome⟩

/-- **What a recombination can end in**, however many exchanges were tried and undone. -/
theorem possible_recombine (h : (a.recombine b).Possible o) : Recombined a b o := by
  refine Draw.possible_retry (fun _ t => Pending a b t) ?_ ?_ ?_ ?_ h
  · intro tries t result ht hstep
    rcases possible_tryExchange ht hstep with ⟨o, hr, ho⟩ | ⟨t', hr, -⟩
    · cases hr
      exact ho
    · cases hr
  · intro tries t t' ht hstep
    rcases possible_tryExchange ht hstep with ⟨o, hr, -⟩ | ⟨t', hr, ht'⟩
    · cases hr
    · cases hr
      exact ht'
  · intro t _
    exact .kept _
  · exact ⟨a.fitness, b.fitness, [], rfl, fun _ => ⟨rfl, rfl⟩⟩

/-- A recombination asks only sensible questions. -/
theorem wellPosed_recombine (a b : Individual) : (a.recombine b).WellPosed := by
  refine Draw.wellPosed_retry (fun _ => True) ?_ (fun _ _ _ _ => trivial) trivial _
  rintro t -
  refine Draw.wellPosed_bind.2 ⟨Draw.wellPosed_element? _, fun path₁? _ => ?_⟩
  refine Draw.wellPosed_bind.2 ⟨Draw.wellPosed_element? _, fun path₂? _ => ?_⟩
  cases path₁? with
  | none => trivial
  | some path₁ =>
    cases path₂? with
    | none => trivial
    | some path₂ => trivial

/-- A run of a recombination ends in one of the ways in which it can end. -/
theorem recombined_run (a b : Individual) {σ : Type} [WordSource σ] (s : σ) :
    Recombined a b ((a.recombine b).run s).1 :=
  possible_recombine (Draw.possible_run (wellPosed_recombine a b) s)

/-- The symbols of the expression of an individual. -/
def symbols (i : Individual) : List Symbol :=
  match i.root with
  | some root => root.symbols
  | none => []

theorem length_symbols (i : Individual) : i.symbols.length = i.size := by
  unfold symbols size
  cases i.root with
  | none => rfl
  | some root => exact root.length_symbols

/-- What an edit brings in and takes away, told by symbols. -/
theorem EditedTo.perm_symbols {i j : Individual} {path : Path} {old new : Expr}
    (h : i.EditedTo path old new j) :
    (j.symbols ++ old.symbols).Perm (i.symbols ++ new.symbols) := by
  obtain ⟨root, root', hroot, hroot', hsplice⟩ := h.exists_splice
  simp only [Individual.symbols, hroot, hroot']
  exact hsplice.perm_symbols

end Individual

/-! ## What every recombination keeps -/

open List (Perm)
open scoped List

/-- The inner two of four stretches change places. -/
theorem perm_swap_inner {α : Type} (w x y z : List α) : w ++ x ++ (y ++ z) ~ w ++ y ++ (x ++ z) := by
  rw [List.append_assoc, List.append_assoc, ← List.append_assoc x, ← List.append_assoc y]
  exact (List.perm_append_comm.append_right z).append_left w

namespace Recombined

variable {a b : Individual} {o : Offspring}

/-- An exchange does not care which of the two individuals is called the first. -/
theorem symm (h : Recombined a b o) : Recombined b a ⟨o.second, o.first, o.log⟩ := by
  cases h with
  | kept log => exact .kept log
  | exchanged hfirst hsecond hfits hvalid₁ hvalid₂ =>
    refine .exchanged hsecond hfirst ?_ hvalid₂ hvalid₁
    rw [Nat.min_comm, Individual.exchangeFits, Bool.and_comm]
    exact hfits

/-- **Operators and leaves are conserved** over both individuals. -/
theorem perm_symbols (h : Recombined a b o) :
    (o.first.symbols ++ o.second.symbols).Perm (a.symbols ++ b.symbols) := by
  cases h with
  | kept log => exact .refl _
  | @exchanged _ path₁ path₂ e₁ e₂ hfirst hsecond _ _ _ =>
    -- with both subtrees on either side the lists agree, and the subtrees cancel
    refine (List.perm_append_right_iff (e₁.symbols ++ e₂.symbols)).1 ?_
    calc o.first.symbols ++ o.second.symbols ++ (e₁.symbols ++ e₂.symbols)
      _ ~ o.first.symbols ++ e₁.symbols ++ (o.second.symbols ++ e₂.symbols) :=
        perm_swap_inner _ _ _ _
      _ ~ a.symbols ++ e₂.symbols ++ (b.symbols ++ e₁.symbols) :=
        hfirst.perm_symbols.append hsecond.perm_symbols
      _ ~ a.symbols ++ b.symbols ++ (e₂.symbols ++ e₁.symbols) := perm_swap_inner _ _ _ _
      _ ~ a.symbols ++ b.symbols ++ (e₁.symbols ++ e₂.symbols) :=
        List.perm_append_comm.append_left _

/-- Each offspring works on what its parent worked on. -/
theorem frame (h : Recombined a b o) :
    (o.first.settings = a.settings ∧ o.first.primitives = a.primitives ∧
      o.first.dataset = a.dataset) ∧
    (o.second.settings = b.settings ∧ o.second.primitives = b.primitives ∧
      o.second.dataset = b.dataset) := by
  cases h with
  | kept log => exact ⟨⟨rfl, rfl, rfl⟩, rfl, rfl, rfl⟩
  | exchanged hfirst hsecond _ _ _ => exact ⟨hfirst.frame, hsecond.frame⟩

/-- A recombination neither takes an expression away nor gives one. -/
theorem isSome_root (h : Recombined a b o) :
    o.first.root.isSome = a.root.isSome ∧ o.second.root.isSome = b.root.isSome := by
  cases h with
  | kept log => exact ⟨rfl, rfl⟩
  | exchanged hfirst hsecond _ _ _ => exact ⟨hfirst.isSome_root, hsecond.isSome_root⟩

/-- An individual without an expression comes out as it was, and so does its partner. -/
theorem eq_of_root_eq_none (h : Recombined a b o) (hnone : a.root = none ∨ b.root = none) :
    o.first = a ∧ o.second = b := by
  cases h with
  | kept log => exact ⟨rfl, rfl⟩
  | exchanged hfirst hsecond _ _ _ =>
    obtain ⟨_, _, ha, -, -⟩ := hfirst.exists_splice
    obtain ⟨_, _, hb, -, -⟩ := hsecond.exists_splice
    rcases hnone with hnone | hnone
    · rw [hnone] at ha
      cases ha
    · rw [hnone] at hb
      cases hb

end Recombined

/-- **An exact exchange or nothing.**  Whatever the words, two individuals come out of
a recombination exactly as they went in, or with the subtrees at one position each
exchanged; then these fit the smaller of the two depth limits, and both fitnesses
are right and finite.  Either way each works on what it worked on before, operators and
leaves are conserved over both, and without two expressions nothing happens. -/
theorem Individual.recombine_exchanges_or_keeps (a b : Individual) {σ : Type} [WordSource σ]
    (s : σ) :
    let o := ((a.recombine b).run s).1
    let limit := min a.settings.maxDepth b.settings.maxDepth
    ((o.first = a ∧ o.second = b) ∨
      ∃ root₁ root₂ root₁' root₂' path₁ path₂ e₁ e₂, a.root = some root₁ ∧ b.root = some root₂ ∧
        root₁.get? path₁ = some e₁ ∧ root₂.get? path₂ = some e₂ ∧
        path₁.length + e₂.height ≤ limit ∧ path₂.length + e₁.height ≤ limit ∧
        root₁.replace? path₁ e₂ = some root₁' ∧ root₂.replace? path₂ e₁ = some root₂' ∧
        o.first.root = some root₁' ∧ o.second.root = some root₂' ∧
        (o.first.isValid = true ∧ o.first.Scored) ∧ o.second.isValid = true ∧ o.second.Scored) ∧
    (o.first.settings = a.settings ∧ o.first.primitives = a.primitives ∧
      o.first.dataset = a.dataset) ∧
    (o.second.settings = b.settings ∧ o.second.primitives = b.primitives ∧
      o.second.dataset = b.dataset) ∧
    (o.first.symbols ++ o.second.symbols).Perm (a.symbols ++ b.symbols) ∧
    o.first.size + o.second.size = a.size + b.size ∧
    (a.root = none ∨ b.root = none → o.first = a ∧ o.second = b) := by
  intro o limit
  have h : Recombined a b o := recombined_run a b s
  clear_value o
  refine ⟨?_, h.frame.1, h.frame.2, h.perm_symbols, ?_, h.eq_of_root_eq_none⟩
  · -- the two ways to end are the two ways of the statement
    cases h with
    | kept log => exact .inl ⟨rfl, rfl⟩
    | @exchanged _ path₁ path₂ e₁ e₂ hfirst hsecond hfits hvalid₁ hvalid₂ =>
      obtain ⟨root₁, root₁', ha, ha', h₁⟩ := hfirst.exists_splice
      obtain ⟨root₂, root₂', hb, hb', h₂⟩ := hsecond.exists_splice
      rw [exchangeFits, Bool.and_eq_true, decide_eq_true_eq, decide_eq_true_eq] at hfits
      have hget₁ : root₁.get? path₁ = some e₁ := Expr.get?_of_splice h₁
      have hget₂ : root₂.get? path₂ = some e₂ := Expr.get?_of_splice h₂
      have hreplace₁ : root₁.replace? path₁ e₂ = some root₁' := Expr.replace?_eq_some_of_splice h₁
      have hreplace₂ : root₂.replace? path₂ e₁ = some root₂' := Expr.replace?_eq_some_of_splice h₂
      exact .inr ⟨root₁, root₂, root₁', root₂', path₁, path₂, e₁, e₂, ha, hb, hget₁, hget₂,
        hfits.1, hfits.2, hreplace₁, hreplace₂, ha', hb', ⟨hvalid₁, hfirst.scored⟩, hvalid₂,
        hsecond.scored⟩
  · have hlength : (o.first.symbols ++ o.second.symbols).length =
        (a.symbols ++ b.symbols).length := h.perm_symbols.length_eq
    rw [List.length_append, List.length_append] at hlength
    simp only [length_symbols] at hlength
    exact hlength

end SymbolicRegression
