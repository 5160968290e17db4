/-
# Splices

Putting an expression in at a position, as a relation between what was there
before and what is there after.  The relation does not care which of the two is
the edit of the other, so what holds of an edit holds of taking it back.

* `Splice` : two expressions that agree except below one position;
* `Expr.exchange?_eq_some_iff` : exchanges are splices;
* `Expr.exchange?_exchange?` : putting the displaced expression back restores everything;
* `Splice.exists_symbols_eq` : nothing is gained or lost elsewhere;
* `Splice.height_le`, `Splice.size_add` : how deep and how large an edit can make an expression;
* `Splice.locations_eq`, `Splice.get?_eq_leaf_iff` : which edits leave positions and leaves alone;
* `Expr.mem_locations_iff` : the listed positions are those that exist.
-/
import SymbolicRegression.Expr.Path
import SymbolicRegression.Proofs.Symbol

namespace SymbolicRegression

/-- `Splice old new path e e'` : `e` has `old` at `path`, `e'` has `new` there, and
everywhere else they are alike. -/
inductive Splice (old new : Expr) : Path → Expr → Expr → Prop
  | here : Splice old new [] old new
  | left {path : Path} {op : BinaryOperator} {left left' right : Expr}
      (h : Splice old new path left left') :
      Splice old new (.left :: path) (.binary op left right) (.binary op left' right)
  | right {path : Path} {op : BinaryOperator} {left right right' : Expr}
      (h : Splice old new path right right') :
      Splice old new (.right :: path) (.binary op left right) (.binary op left right')
  | operand {path : Path} {op : UnaryOperator} {operand operand' : Expr}
      (h : Splice old new path operand operand') :
      Splice old new (.left :: path) (.unary op operand) (.unary op operand')

variable {old new e e' : Expr} {path : Path}

/-- A splice can be taken back. -/
theorem Splice.symm (h : Splice old new path e e') : Splice new old path e' e := by
  induction h with
  | here => exact .here
  | left _ ih => exact .left ih
  | right _ ih => exact .right ih
  | operand _ ih => exact .operand ih

/-! ## Exchanges -/

namespace Expr

/-- A splice is an exchange. -/
theorem exchange?_of_splice (h : Splice old new path e e') :
    e.exchange? path new = some (old, e') := by
  induction h with
  | here => cases old <;> rfl
  | left _ ih => rw [exchange?, ih]; rfl
  | right _ ih => rw [exchange?, ih]; rfl
  | operand _ ih => rw [exchange?, ih]; rfl

/-- **Exchanges are splices.**  An exchange displaces `old` and leaves `e'` exactly
when `e` and `e'` differ by `old` and the new expression at that position. -/
theorem exchange?_eq_some_iff :
    e.exchange? path new = some (old, e') ↔ Splice old new path e e' := by
  refine ⟨fun h => ?_, exchange?_of_splice⟩
  -- the induction follows the path down, as the exchange does
  induction path generalizing e e' with
  | nil =>
    have hroot : e.exchange? [] new = some (e, new) := by cases e <;> rfl
    rw [hroot] at h
    cases h
    exact .here
  | cons side path ih =>
    cases e with
    | binary op left right =>
      cases side with
      | left =>
        rw [exchange?, Option.map_eq_some_iff] at h
        obtain ⟨⟨_, left'⟩, hl, h⟩ := h
        cases h
        exact .left (ih hl)
      | right =>
        rw [exchange?, Option.map_eq_some_iff] at h
        obtain ⟨⟨_, right'⟩, hr, h⟩ := h
        cases h
        exact .right (ih hr)
    | unary op operand =>
      cases side with
      | left =>
        rw [exchange?, Option.map_eq_some_iff] at h
        obtain ⟨⟨_, operand'⟩, hx, h⟩ := h
        cases h
        exact .operand (ih hx)
      | right => cases h
    | var index => cases side <;> cases h
    | const value => cases side <;> cases h

/-- Where an expression stands, every other one can be put in. -/
theorem exists_splice_of_get? (h : e.get? path = some old) (new : Expr) :
    ∃ e', Splice old new path e e' := by
  rw [← map_fst_exchange? e path new, Option.map_eq_some_iff] at h
  obtain ⟨⟨_, e'⟩, hx, rfl⟩ := h
  exact ⟨e', exchange?_eq_some_iff.1 hx⟩

/-- What a splice displaces is what stood at its position. -/
theorem get?_of_splice (h : Splice old new path e e') : e.get? path = some old := by
  rw [← map_fst_exchange? e path new, exchange?_of_splice h]
  rfl

/-- **Undoing an exchange.**  Putting the displaced expression back restores the
whole expression, and displaces what was put in. -/
theorem exchange?_exchange? (h : e.exchange? path new = some (old, e')) :
    e'.exchange? path old = some (new, e) :=
  exchange?_of_splice (exchange?_eq_some_iff.1 h).symm

theorem replace?_eq_some_of_splice (h : Splice old new path e e') :
    e.replace? path new = some e' := by
  rw [replace?, exchange?_of_splice h]
  rfl

/-- A replacement is a splice of what stood at the position. -/
theorem splice_of_replace? (hget : e.get? path = some old) (h : e.replace? path new = some e') :
    Splice old new path e e' := by
  obtain ⟨edited, hsplice⟩ := exists_splice_of_get? hget new
  rw [replace?_eq_some_of_splice hsplice] at h
  cases h
  exact hsplice

/-! ## Positions -/

/-- The listed positions are those at which an expression stands. -/
theorem mem_locations_iff {e : Expr} {path : Path} :
    path ∈ e.locations ↔ (e.get? path).isSome := by
  induction e generalizing path with
  | binary op left right ihl ihr =>
    cases path with
    | nil => simp [locations, get?]
    | cons side path => cases side <;> simp [locations, get?, operand?, ihl, ihr]
  | unary op operand ih =>
    cases path with
    | nil => simp [locations, get?]
    | cons side path => cases side <;> simp [locations, get?, operand?, ih]
  | var index =>
    cases path with
    | nil => simp [locations, get?]
    | cons side path => cases side <;> simp [locations, get?, operand?]
  | const value =>
    cases path with
    | nil => simp [locations, get?]
    | cons side path => cases side <;> simp [locations, get?, operand?]

end Expr

/-! ## Measures -/

namespace Splice

/-- A position and the levels below it lie within the levels of the whole. -/
theorem length_add_height_le (h : Splice old new path e e') :
    path.length + old.height ≤ e.height := by
  induction h with
  | here => simp
  | left _ ih => simp only [List.length_cons, Expr.height]; omega
  | right _ ih => simp only [List.length_cons, Expr.height]; omega
  | operand _ ih => simp only [List.length_cons, Expr.height]; omega

/-- An edit makes an expression no higher than it was, or than the position and
the new levels below it. -/
theorem height_le (h : Splice old new path e e') :
    e'.height ≤ max e.height (path.length + new.height) := by
  induction h with
  | here =>
    rw [List.length_nil, Nat.zero_add]
    exact Nat.le_max_right _ _
  | left _ ih => simp only [List.length_cons, Expr.height] at ih ⊢; omega
  | right _ ih => simp only [List.length_cons, Expr.height] at ih ⊢; omega
  | operand _ ih => simp only [List.length_cons, Expr.height] at ih ⊢; omega

/-- **An edit exchanges one stretch of symbols.**  The symbols before and after
those of the displaced expression stay where they are. -/
theorem exists_symbols_eq (h : Splice old new path e e') :
    ∃ before after, e.symbols = before ++ old.symbols ++ after ∧
      e'.symbols = before ++ new.symbols ++ after := by
  induction h with
  | here => exact ⟨[], [], by simp, by simp⟩
  | @left _ op _ _ right _ ih =>
    obtain ⟨before, after, h, h'⟩ := ih
    exact ⟨.binary op :: before, after ++ right.symbols, by simp [Expr.symbols, h],
      by simp [Expr.symbols, h']⟩
  | @right _ op left _ _ _ ih =>
    obtain ⟨before, after, h, h'⟩ := ih
    exact ⟨.binary op :: (left.symbols ++ before), after, by simp [Expr.symbols, h],
      by simp [Expr.symbols, h']⟩
  | @operand _ op _ _ _ ih =>
    obtain ⟨before, after, h, h'⟩ := ih
    exact ⟨.unary op :: before, after, by simp [Expr.symbols, h], by simp [Expr.symbols, h']⟩

/-- The symbols of a displaced expression were symbols of the whole. -/
theorem mem_symbols_of_mem_old (h : Splice old new path e e') {symbol : Symbol}
    (hs : symbol ∈ old.symbols) : symbol ∈ e.symbols := by
  obtain ⟨before, after, he, -⟩ := h.exists_symbols_eq
  rw [he]
  simp [hs]

/-- An edit brings in no symbols but those of the new expression. -/
theorem mem_symbols_or (h : Splice old new path e e') {symbol : Symbol}
    (hs : symbol ∈ e'.symbols) : symbol ∈ e.symbols ∨ symbol ∈ new.symbols := by
  obtain ⟨before, after, he, he'⟩ := h.exists_symbols_eq
  rw [he'] at hs
  rw [he]
  simp only [List.mem_append] at hs ⊢
  rcases hs with (hs | hs) | hs
  · exact .inl (.inl (.inl hs))
  · exact .inr hs
  · exact .inl (.inr hs)

/-- **An edit conserves symbols.**  What the whole gains is what the displaced
expression takes away. -/
theorem perm_symbols (h : Splice old new path e e') :
    (e'.symbols ++ old.symbols).Perm (e.symbols ++ new.symbols) := by
  obtain ⟨before, after, he, he'⟩ := h.exists_symbols_eq
  have hswap : (new.symbols ++ after ++ old.symbols).Perm (old.symbols ++ after ++ new.symbols) := by
    rw [List.append_assoc old.symbols]
    exact List.perm_append_comm.trans (List.perm_append_comm.append_left _)
  rw [he, he']
  simpa only [List.append_assoc] using hswap.append_left before

/-- What an edit does to the number of positions. -/
theorem size_add (h : Splice old new path e e') : e'.size + old.size = e.size + new.size := by
  have hlength := h.perm_symbols.length_eq
  rw [List.length_append, List.length_append] at hlength
  simp only [Expr.length_symbols] at hlength
  exact hlength

/-- An edit that puts in nothing higher makes nothing higher. -/
theorem height_le_of_height_le (h : Splice old new path e e') (hle : new.height ≤ old.height) :
    e'.height ≤ e.height := by
  have hbound := h.height_le
  have hpath := h.length_add_height_le
  omega

/-! ## Shape -/

/-- An edit that keeps the positions below its own keeps all positions. -/
theorem locations_eq (h : Splice old new path e e') (hsame : new.locations = old.locations) :
    e'.locations = e.locations := by
  induction h with
  | here => exact hsame
  | left _ ih => rw [Expr.locations, Expr.locations, ih]
  | right _ ih => rw [Expr.locations, Expr.locations, ih]
  | operand _ ih => rw [Expr.locations, Expr.locations, ih]

/-- An edit that keeps the leaves below its position keeps all leaves where they are. -/
theorem get?_eq_leaf_iff (h : Splice old new path e e') {leaf : Expr} (hleaf : leaf.isLeaf = true)
    (hsame : ∀ q, new.get? q = some leaf ↔ old.get? q = some leaf) (q : Path) :
    e'.get? q = some leaf ↔ e.get? q = some leaf := by
  -- at the root of an operator no leaf stands, and below it only one operand is edited
  have hroot {op : Expr} (hop : op.isLeaf = false) : ¬ op.get? [] = some leaf := by
    rw [Expr.get?_nil]
    rintro ⟨⟩
    rw [hleaf] at hop
    cases hop
  induction h generalizing q with
  | here => exact hsame q
  | left _ ih =>
    cases q with
    | nil => exact iff_of_false (hroot rfl) (hroot rfl)
    | cons side q =>
      cases side with
      | left => exact ih q
      | right => exact Iff.rfl
  | right _ ih =>
    cases q with
    | nil => exact iff_of_false (hroot rfl) (hroot rfl)
    | cons side q =>
      cases side with
      | left => exact Iff.rfl
      | right => exact ih q
  | operand _ ih =>
    cases q with
    | nil => exact iff_of_false (hroot rfl) (hroot rfl)
    | cons side q =>
      cases side with
      | left => exact ih q
      | right => exact Iff.rfl

end Splice

end SymbolicRegression
