/-
# Putting an expression in, and putting back what was there

What stands at a position can be exchanged for any other expression.  The exchange is seen at
the position and below it, and nowhere else except on the way down to it; so it can be taken
back, and exchanges at positions neither of which is on the way to the other do not notice each
other.

* `Expr.exchange` : an exchange where there is the position, and none elsewhere;
* `Expr.get?_append` : going down a path in two stages;
* `Path.Apart` : paths neither of which goes on from the other;
* `Splice.get?_of_apart`, `Splice.diamond` : what is apart from an edit stays, and edits apart
  from each other can be made in either order;
* `Expr.exchange_comm` : so can exchanges, wherever they lead;
* `Individual.put_eq` : an individual is edited by an exchange in its expression.

Main statement:

* `Expr.exchange_lawful` : **the laws of an exchange.**
-/
import SymbolicRegression.Individual.Basic
import SymbolicRegression.Proofs.Splice

namespace SymbolicRegression

/-! ## Paths that part -/

namespace Path

variable {p q : Path}

/-- Neither path goes on from the other. -/
def Apart (p q : Path) : Prop := ¬ p <+: q ∧ ¬ q <+: p

theorem Apart.symm (h : p.Apart q) : q.Apart p := ⟨h.2, h.1⟩

/-- Every path goes on from the root. -/
theorem not_apart_nil (q : Path) : ¬ Apart [] q := fun h => h.1 List.nil_prefix

theorem not_nil_apart (p : Path) : ¬ p.Apart [] := fun h => h.2 List.nil_prefix

/-- Below one operand, paths part where they part from there. -/
theorem Apart.of_cons {side : Side} (h : Apart (side :: p) (side :: q)) : p.Apart q :=
  ⟨fun hpre => h.1 (List.cons_prefix_cons.2 ⟨rfl, hpre⟩),
    fun hpre => h.2 (List.cons_prefix_cons.2 ⟨rfl, hpre⟩)⟩

end Path

variable {old new old' new' e e₁ e₂ e' : Expr} {p q : Path}

/-! ## Edits and other positions -/

/-- Going down a path in two stages. -/
theorem Expr.get?_append (e : Expr) (p q : Path) : e.get? (p ++ q) = (e.get? p).bind (·.get? q) := by
  induction p generalizing e with
  | nil => rw [List.nil_append, get?_nil, Option.bind_some]
  | cons side p ih =>
    rw [List.cons_append, get?, get?]
    cases e.operand? side with
    | none => rfl
    | some operand => exact ih operand

namespace Splice

/-- An edit is not seen at positions apart from its own. -/
theorem get?_of_apart (h : Splice old new p e e') (hapart : p.Apart q) : e'.get? q = e.get? q := by
  induction h generalizing q with
  | here => exact absurd hapart (Path.not_apart_nil q)
  | left _ ih =>
    cases q with
    | nil => exact absurd hapart (Path.not_nil_apart _)
    | cons side q =>
      cases side with
      | left => exact ih hapart.of_cons
      | right => rfl
  | right _ ih =>
    cases q with
    | nil => exact absurd hapart (Path.not_nil_apart _)
    | cons side q =>
      cases side with
      | left => rfl
      | right => exact ih hapart.of_cons
  | operand _ ih =>
    cases q with
    | nil => exact absurd hapart (Path.not_nil_apart _)
    | cons side q =>
      cases side with
      | left => exact ih hapart.of_cons
      | right => rfl

/-- **Edits apart from each other can be made in either order**, with the same result. -/
theorem diamond (h : Splice old new p e e₁) (h' : Splice old' new' q e e₂) (hapart : p.Apart q) :
    ∃ e₃, Splice old' new' q e₁ e₃ ∧ Splice old new p e₂ e₃ := by
  -- the second edit follows the first one down until the two part, at a binary operator
  induction h generalizing q e₂ with
  | here => exact absurd hapart (Path.not_apart_nil q)
  | left h ih =>
    cases h' with
    | here => exact absurd hapart (Path.not_nil_apart _)
    | left h' =>
      obtain ⟨left₃, hfirst, hsecond⟩ := ih h' hapart.of_cons
      exact ⟨_, .left hfirst, .left hsecond⟩
    | right h' => exact ⟨_, .right h', .left h⟩
  | right h ih =>
    cases h' with
    | here => exact absurd hapart (Path.not_nil_apart _)
    | left h' => exact ⟨_, .left h', .right h⟩
    | right h' =>
      obtain ⟨right₃, hfirst, hsecond⟩ := ih h' hapart.of_cons
      exact ⟨_, .right hfirst, .right hsecond⟩
  | operand h ih =>
    cases h' with
    | here => exact absurd hapart (Path.not_nil_apart _)
    | operand h' =>
      obtain ⟨operand₃, hfirst, hsecond⟩ := ih h' hapart.of_cons
      exact ⟨_, .operand hfirst, .operand hsecond⟩

end Splice

namespace Expr

/-! ## Exchanges in place -/

/-- Put `new` at a position, where there is one.  The result is what it displaces, if anything,
and the expression afterwards. -/
def exchange (e : Expr) (path : Path) (new : Expr) : Option Expr × Expr :=
  match e.exchange? path new with
  | some (old, edited) => (some old, edited)
  | none => (none, e)

theorem exchange_of_splice (h : Splice old new p e e') : e.exchange p new = (some old, e') := by
  rw [exchange, exchange?_of_splice h]

/-- Where there is no position, nothing changes. -/
theorem exchange_of_get?_eq_none (h : e.get? p = none) (new : Expr) :
    e.exchange p new = (none, e) := by
  rw [← map_fst_exchange? e p new, Option.map_eq_none_iff] at h
  rw [exchange, h]

/-- An exchange displaces what stood at the position. -/
theorem fst_exchange (e : Expr) (path : Path) (new : Expr) :
    (e.exchange path new).1 = e.get? path := by
  cases hget : e.get? path with
  | none => rw [exchange_of_get?_eq_none hget]
  | some old =>
    obtain ⟨e', hsplice⟩ := exists_splice_of_get? hget new
    rw [exchange_of_splice hsplice]

/-- An exchange is not seen at positions apart from its own. -/
theorem get?_exchange (h : p.Apart q) (e new : Expr) : (e.exchange p new).2.get? q = e.get? q := by
  cases hget : e.get? p with
  | none => rw [exchange_of_get?_eq_none hget]
  | some old =>
    obtain ⟨e', hsplice⟩ := exists_splice_of_get? hget new
    rw [exchange_of_splice hsplice]
    exact hsplice.get?_of_apart h

/-- An exchange that changes nothing goes unnoticed before and after another one apart from it. -/
theorem exchange_comm_of_eq_none (hapart : p.Apart q) (h : e.get? p = none) (new new' : Expr) :
    ((e.exchange q new').2.exchange p new).2 = ((e.exchange p new).2.exchange q new').2 := by
  have hmissing : (e.exchange q new').2.get? p = none := by
    rw [get?_exchange hapart.symm]
    exact h
  rw [exchange_of_get?_eq_none hmissing, exchange_of_get?_eq_none h]

/-- **Exchanges apart from each other commute**, whether there are such positions or not. -/
theorem exchange_comm (hapart : p.Apart q) (e new new' : Expr) :
    ((e.exchange q new').2.exchange p new).2 = ((e.exchange p new).2.exchange q new').2 := by
  cases hp : e.get? p with
  | none => exact exchange_comm_of_eq_none hapart hp new new'
  | some old =>
    cases hq : e.get? q with
    | none => exact (exchange_comm_of_eq_none hapart.symm hq new' new).symm
    | some old' =>
      obtain ⟨e₁, hfirst⟩ := exists_splice_of_get? hp new
      obtain ⟨e₂, hsecond⟩ := exists_splice_of_get? hq new'
      obtain ⟨e₃, hsecond', hfirst'⟩ := hfirst.diamond hsecond hapart
      rw [exchange_of_splice hfirst, exchange_of_splice hsecond, exchange_of_splice hfirst',
        exchange_of_splice hsecond']

end Expr

/-- An individual is edited by an exchange in its expression. -/
theorem Individual.put_eq {i : Individual} (hroot : i.root = some e) (path : Path) (new : Expr) :
    i.put path new = { i with root := some (e.exchange path new).2 } := by
  rw [put, exchange?, hroot, Option.bind_some, Expr.exchange]
  cases e.exchange? path new with
  | none =>
    show i = { i with root := some e }
    rw [← hroot]
  | some exchanged => rfl

namespace Expr

/-! ## Main statement -/

/-- **The laws of an exchange.**  It displaces what stood at the position; where nothing stood,
it displaces nothing and changes nothing.  Where `old` stood, there is now `new`, and below it
what is below that; putting `old` back displaces `new` and restores the whole expression; the
size changes by the difference of the two, and the height becomes at most that of the whole
before or that of `new` at its position.  At a position apart from the first one nothing is
noticed: there is what was there, and a second exchange there displaces what it would have
displaced before, the two together having the same result in either order.  An individual with
this expression is edited in the same way. -/
theorem exchange_lawful (e new : Expr) (path : Path) :
    ∃ after, e.exchange path new = (e.get? path, after) ∧
      (e.get? path = none → after = e) ∧
      (∀ old, e.get? path = some old →
        after.get? path = some new ∧
        (∀ below, after.get? (path ++ below) = new.get? below) ∧
        after.exchange path old = (some new, e) ∧
        after.size + old.size = e.size + new.size ∧
        after.height ≤ max e.height (path.length + new.height)) ∧
      (∀ q, path.Apart q →
        after.get? q = e.get? q ∧
        ∀ other, (after.exchange q other).1 = (e.exchange q other).1 ∧
          (e.exchange q other).2.exchange path new = (e.get? path, (after.exchange q other).2)) ∧
      ∀ i : Individual, i.root = some e → i.put path new = { i with root := some after } := by
  refine ⟨(e.exchange path new).2, ?_, ?_, ?_, ?_, fun i hroot => Individual.put_eq hroot path new⟩
  · rw [← fst_exchange e path new]
  · intro hmissing
    rw [exchange_of_get?_eq_none hmissing]
  · intro old hold
    obtain ⟨after, hsplice⟩ := exists_splice_of_get? hold new
    have hnew : after.get? path = some new := get?_of_splice hsplice.symm
    rw [exchange_of_splice hsplice]
    refine ⟨hnew, ?_, exchange_of_splice hsplice.symm, hsplice.size_add, hsplice.height_le⟩
    intro below
    rw [get?_append, hnew, Option.bind_some]
  · intro q hapart
    have hget : (e.exchange path new).2.get? q = e.get? q := get?_exchange hapart e new
    refine ⟨hget, fun other => ⟨?_, Prod.ext ?_ ?_⟩⟩
    · rw [fst_exchange, fst_exchange, hget]
    · rw [fst_exchange, get?_exchange hapart.symm]
    · exact exchange_comm hapart e new other

/-- The product of a variable and a negated one. -/
def signedProduct : Expr :=
  .binary ⟨"multiply", fun x y => x * y⟩ (.var 0) (.unary ⟨"negative", fun x => -x⟩ (.var 1))

/-- A constant in the place of the first variable can be taken back, and it goes unnoticed where
the second variable stands. -/
theorem exchange_lawful_signedProduct :
    signedProduct.get? [.left] = some (.var 0) ∧ Path.Apart [.left] [.right, .left] ∧
      signedProduct.get? [.left, .left] = none ∧
      (∃ after, signedProduct.exchange [.left] (.const 2.0) = (some (.var 0), after) ∧
        after.exchange [.left] (.var 0) = (some (.const 2.0), signedProduct) ∧
        after.get? [.right, .left] = some (.var 1)) ∧
      signedProduct.exchange [.left, .left] (.const 2.0) = (none, signedProduct) := by
  have hget : signedProduct.get? [.left] = some (.var 0) := rfl
  have hapart : Path.Apart [.left] [.right, .left] := ⟨by decide, by decide⟩
  have hmissing : signedProduct.get? [.left, .left] = none := rfl
  obtain ⟨after, hafter, -, hlaws, hothers, -⟩ :=
    exchange_lawful signedProduct (.const 2.0) [.left]
  obtain ⟨-, -, hback, -, -⟩ := hlaws (.var 0) hget
  obtain ⟨same, hsame, hunchanged, -⟩ := exchange_lawful signedProduct (.const 2.0) [.left, .left]
  rw [hunchanged hmissing] at hsame
  exact ⟨hget, hapart, hmissing, ⟨after, hafter, hback, (hothers [.right, .left] hapart).1⟩, hsame⟩

end Expr

end SymbolicRegression
