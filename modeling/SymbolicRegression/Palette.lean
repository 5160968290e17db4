/-
# Constant palettes

The constants that the random search may put into a leaf.

* `Palette` : a list of constants that is not empty;
* `Palette.ofValues` : the palette of given values, which must be finite;
* `Palette.notable` : well-known constants and two random ones;
* `Palette.random` : a constant at random.
-/
import SymbolicRegression.Batch
import SymbolicRegression.Message
import SymbolicRegression.Random.Draw

namespace SymbolicRegression

/-- Why a list of values does not make a palette. -/
inductive PaletteError
  /-- There is no value. -/
  | empty
  /-- A value is infinite or a NaN. -/
  | notFinite (value : Float)
  deriving DecidableEq, Repr

/-- The wording of an error. -/
def PaletteError.message : PaletteError → String
  | .empty => "the constant palette is empty"
  | .notFinite value => "palette constant " ++ messageText value ++ " is not finite"

/-- The constants of a search. -/
structure Palette where
  values : List Float
  values_ne_nil : values ≠ []

namespace Palette

instance : BEq Palette := ⟨fun p q => p.values == q.values⟩

/-- The palette of given values, or the first thing wrong with them. -/
def ofValues (values : List Float) : Except PaletteError Palette :=
  if h : values = [] then .error .empty
  else
    match values.find? fun v => !v.isFinite with
    | some bad => .error (.notFinite bad)
    | none => .ok ⟨values, h⟩

/-- A palette that is accepted has the values it was made from, and all of them are finite.
-/
theorem allFinite_of_ofValues {values : List Float} {p : Palette} (h : ofValues values = .ok p) :
    p.values = values ∧ AllFinite p.values := by
  unfold ofValues at h
  split at h
  · exact absurd h (by simp)
  · split at h
    · exact absurd h (by simp)
    · obtain rfl := Except.ok.inj h
      refine ⟨rfl, fun v hv => ?_⟩
      have none := List.find?_eq_none.1 (by assumption) v hv
      simpa using none

/-! ## Well-known constants -/

/-- The double nearest to π. -/
def circleConstant : Float := 3.14159265358979323846264338327950288

/-- The double nearest to e. -/
def growthConstant : Float := 2.71828182845904523536028747135266250

/-- The double nearest to the square root of two. -/
def rootTwo : Float := 1.41421356237309504880168872420969808

/-- π, e, the roots of two and three, and two random constants, the first from
-10 to -1 and the second from 1 to 10. -/
def notable : Draw Palette := do
  let negative ← Draw.uniform (-10.0) (-1.0)
  let positive ← Draw.uniform 1.0 10.0
  return ⟨[circleConstant, growthConstant, rootTwo, Float.sqrt 3.0, negative, positive],
    by simp⟩

/-- A constant of the palette, each as likely as the others. -/
def random (p : Palette) : Draw Float := Draw.member p.values p.values_ne_nil

end Palette

end SymbolicRegression
