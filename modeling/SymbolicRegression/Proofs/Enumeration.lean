/-
# The listing of the positions

Every choice of a position is made from one list, so the list has to have each position of the
expression, and each of them once.  It has them in the order in which they are met on a walk
through the expression: what stands above before what stands below, and what is below a left
operand before what is below the right one.

* `Path.Precedes` : this order, told by paths alone;
* `Walk`, `Expr.walk` : a walk that keeps one path, to where it stands, and lists on the way;
* `Expr.walk_eq` : it lists the positions and ends where it began;
* `Expr.pairwise_locations` : the list is in order, so that no position is in it twice;
* `Expr.exists_length_eq`, `Expr.var_mem_symbols_iff` : heights and variables by positions.

Main statement:

* `Expr.locations_enumerate` : **the list has every position once and in order, and all
  measures can be read off it.**
-/
import SymbolicRegression.Proofs.Splice

namespace SymbolicRegression

/-! ## The order of positions -/

namespace Path

variable {p q : Path}

/-- `p` comes before `q` : either `p` is above `q`, or the two part somewhere, where `p` goes on
to the left and `q` to the right. -/
def Precedes (p q : Path) : Prop :=
  (p <+: q ∧ p ≠ q) ∨
    ∃ fork below below', p = fork ++ Side.left :: below ∧ q = fork ++ Side.right :: below'

/-- The root comes before everything else. -/
theorem nil_precedes_cons (side : Side) (q : Path) : Precedes [] (side :: q) :=
  .inl ⟨List.nil_prefix, (List.cons_ne_nil side q).symm⟩

theorem nil_precedes_of_mem {side : Side} {paths : List Path} (h : p ∈ paths.map (side :: ·)) :
    Precedes [] p := by
  obtain ⟨below, -, rfl⟩ := List.mem_map.1 h
  exact nil_precedes_cons side below

/-- Nothing comes before the root. -/
theorem not_precedes_nil (p : Path) : ¬ p.Precedes [] := by
  rintro (⟨habove, hne⟩ | ⟨fork, below, below', -, hq⟩)
  · exact hne (List.prefix_nil.1 habove)
  · exact List.append_ne_nil_of_right_ne_nil fork (List.cons_ne_nil _ below') hq.symm

/-- What is below a left operand comes before what is below the right one, and below one
operand the order is that of the paths from there. -/
theorem cons_precedes_cons_iff {side side' : Side} :
    Precedes (side :: p) (side' :: q) ↔
      (side = .left ∧ side' = .right) ∨ (side = side' ∧ p.Precedes q) := by
  constructor
  · rintro (⟨habove, hne⟩ | ⟨fork, below, below', hp, hq⟩)
    · obtain ⟨rfl, hrest⟩ := List.cons_prefix_cons.1 habove
      exact .inr ⟨rfl, .inl ⟨hrest, fun heq => hne (by rw [heq])⟩⟩
    · cases fork with
      | nil =>
        cases hp
        cases hq
        exact .inl ⟨rfl, rfl⟩
      | cons step fork =>
        cases hp
        cases hq
        exact .inr ⟨rfl, .inr ⟨fork, below, below', rfl, rfl⟩⟩
  · rintro (⟨rfl, rfl⟩ | ⟨rfl, ⟨habove, hne⟩ | ⟨fork, below, below', rfl, rfl⟩⟩)
    · exact .inr ⟨[], p, q, rfl, rfl⟩
    · exact .inl ⟨List.cons_prefix_cons.2 ⟨rfl, habove⟩, fun heq => hne (List.cons.inj heq).2⟩
    · exact .inr ⟨side :: fork, below, below', rfl, rfl⟩

theorem Precedes.cons (side : Side) (h : p.Precedes q) : Precedes (side :: p) (side :: q) :=
  cons_precedes_cons_iff.2 (.inr ⟨rfl, h⟩)

/-- Of two positions at most one comes before the other. -/
theorem Precedes.asymm (h : p.Precedes q) : ¬ q.Precedes p := by
  induction p generalizing q with
  | nil => exact not_precedes_nil q
  | cons side p ih =>
    cases q with
    | nil => exact absurd h (not_precedes_nil _)
    | cons side' q =>
      intro hback
      rcases cons_precedes_cons_iff.1 h with ⟨rfl, rfl⟩ | ⟨rfl, hbelow⟩
      · rcases cons_precedes_cons_iff.1 hback with ⟨⟨⟩, -⟩ | ⟨⟨⟩, -⟩
      · rcases cons_precedes_cons_iff.1 hback with ⟨rfl, ⟨⟩⟩ | ⟨-, hback⟩
        exact ih hbelow hback

theorem Precedes.ne (h : p.Precedes q) : p ≠ q := by
  rintro rfl
  exact h.asymm h

end Path

/-! ## A walk through the positions -/

/-- Where a walk through an expression stands. -/
structure Walk where
  /-- The path to the current position. -/
  path : Path
  /-- The positions listed so far. -/
  listed : List Path

namespace Walk

/-- List the current position. -/
def list (w : Walk) : Walk := { w with listed := w.listed ++ [w.path] }

/-- Go down to an operand. -/
def enter (w : Walk) (side : Side) : Walk := { w with path := w.path ++ [side] }

/-- Go back up. -/
def leave (w : Walk) : Walk := { w with path := w.path.dropLast }

end Walk

namespace Expr

variable {e : Expr} {p q : Path}

/-- An operand has fewer positions than the whole. -/
theorem size_lt_of_operand? {side : Side} {operand : Expr} (h : e.operand? side = some operand) :
    operand.size < e.size := by
  cases e <;> cases side <;> cases h <;> simp only [size] <;> omega

/-- List the current position; then, on each side on which there is an operand, go down to it,
walk through it and come back. -/
def walk (e : Expr) (w : Walk) : Walk :=
  [Side.left, Side.right].foldl
    (fun w side =>
      match h : e.operand? side with
      | some operand =>
          have := size_lt_of_operand? h
          (operand.walk (w.enter side)).leave
      | none => w)
    w.list
termination_by e.size

/-- **A walk lists the positions**, each by its path from the root, and comes back to where it
began. -/
theorem walk_eq (e : Expr) (w : Walk) :
    e.walk w = { w with listed := w.listed ++ e.locations.map (w.path ++ ·) } := by
  induction e generalizing w with
  | binary op left right ihl ihr =>
    rw [walk]
    simp [operand?, ihl, ihr, Walk.list, Walk.enter, Walk.leave, locations, Function.comp_def]
  | unary op operand ih =>
    rw [walk]
    simp [operand?, ih, Walk.list, Walk.enter, Walk.leave, locations, Function.comp_def]
  | var index =>
    rw [walk]
    simp [operand?, Walk.list, locations]
  | const value =>
    rw [walk]
    simp [operand?, Walk.list, locations]

/-! ## The list in order -/

/-- **The list is in order**: of any two positions in it, the one that is listed first comes
before the other. -/
theorem pairwise_locations (e : Expr) : e.locations.Pairwise Path.Precedes := by
  induction e with
  | binary op left right ihl ihr =>
    rw [locations, List.pairwise_cons, List.pairwise_append, List.pairwise_map, List.pairwise_map]
    refine ⟨?_, ihl.imp (·.cons _), ihr.imp (·.cons _), ?_⟩
    · intro path hpath
      rcases List.mem_append.1 hpath with hpath | hpath
      · exact Path.nil_precedes_of_mem hpath
      · exact Path.nil_precedes_of_mem hpath
    · intro path hpath path' hpath'
      obtain ⟨below, -, rfl⟩ := List.mem_map.1 hpath
      obtain ⟨below', -, rfl⟩ := List.mem_map.1 hpath'
      exact Path.cons_precedes_cons_iff.2 (.inl ⟨rfl, rfl⟩)
  | unary op operand ih =>
    rw [locations, List.pairwise_cons, List.pairwise_map]
    exact ⟨fun path hpath => Path.nil_precedes_of_mem hpath, ih.imp (·.cons _)⟩
  | var index => exact List.pairwise_singleton _ _
  | const value => exact List.pairwise_singleton _ _

/-- Among the listed positions, to be listed first is to come first. -/
theorem lt_iff_precedes {i j : Nat} (hp : e.locations[i]? = some p) (hq : e.locations[j]? = some q) :
    i < j ↔ p.Precedes q := by
  have hordered {m n : Nat} {path path' : Path} (hpath : e.locations[m]? = some path)
      (hpath' : e.locations[n]? = some path') (hlt : m < n) : path.Precedes path' := by
    obtain ⟨hm, rfl⟩ := List.getElem?_eq_some_iff.1 hpath
    obtain ⟨hn, rfl⟩ := List.getElem?_eq_some_iff.1 hpath'
    exact List.pairwise_iff_getElem.1 e.pairwise_locations m n hm hn hlt
  refine ⟨hordered hp hq, fun h => ?_⟩
  rcases Nat.lt_trichotomy i j with hlt | rfl | hgt
  · exact hlt
  · exact absurd (Option.some.inj (hp.symm.trans hq)) h.ne
  · exact absurd (hordered hq hp hgt) h.asymm

/-! ## Measures by positions -/

/-- No position is deeper than there are levels below the root. -/
theorem length_lt_height (h : p ∈ e.locations) : p.length < e.height := by
  obtain ⟨sub, hget⟩ := Option.isSome_iff_exists.1 (mem_locations_iff.1 h)
  obtain ⟨_, hsplice⟩ := exists_splice_of_get? hget sub
  have hpath := hsplice.length_add_height_le
  have hlevel := sub.height_pos
  omega

/-- A position in an operand is one in the whole. -/
theorem cons_mem_locations {side : Side} {operand : Expr} (h : e.operand? side = some operand)
    (hp : p ∈ operand.locations) : side :: p ∈ e.locations := by
  rw [mem_locations_iff, get?, h]
  exact mem_locations_iff.1 hp

/-- On the lowest level there is a position. -/
theorem exists_length_eq (e : Expr) : ∃ path ∈ e.locations, e.height = path.length + 1 := by
  induction e with
  | binary op left right ihl ihr =>
    obtain ⟨pathl, hpathl, hleft⟩ := ihl
    obtain ⟨pathr, hpathr, hright⟩ := ihr
    -- the higher operand has the deeper position
    rcases Nat.le_total right.height left.height with hle | hle
    · refine ⟨.left :: pathl, cons_mem_locations rfl hpathl, ?_⟩
      rw [height, Nat.max_eq_left hle, hleft, List.length_cons]
    · refine ⟨.right :: pathr, cons_mem_locations rfl hpathr, ?_⟩
      rw [height, Nat.max_eq_right hle, hright, List.length_cons]
  | unary op operand ih =>
    obtain ⟨path, hpath, hoperand⟩ := ih
    refine ⟨.left :: path, cons_mem_locations rfl hpath, ?_⟩
    rw [height, hoperand, List.length_cons]
  | var index => exact ⟨[], List.mem_singleton_self _, rfl⟩
  | const value => exact ⟨[], List.mem_singleton_self _, rfl⟩

/-- A variable occurs in an expression exactly when it stands at a listed position. -/
theorem var_mem_symbols_iff {index : Nat} :
    Symbol.var index ∈ e.symbols ↔ ∃ path ∈ e.locations, e.get? path = some (.var index) := by
  constructor
  · intro h
    suffices ∃ path, e.get? path = some (.var index) by
      obtain ⟨path, hget⟩ := this
      exact ⟨path, mem_locations_iff.2 (by rw [hget]; rfl), hget⟩
    induction e with
    | binary op left right ihl ihr =>
      rcases var_mem_symbols_binary.1 h with h | h
      · obtain ⟨path, hget⟩ := ihl h
        exact ⟨.left :: path, hget⟩
      · obtain ⟨path, hget⟩ := ihr h
        exact ⟨.right :: path, hget⟩
    | unary op operand ih =>
      obtain ⟨path, hget⟩ := ih (var_mem_symbols_unary.1 h)
      exact ⟨.left :: path, hget⟩
    | var found =>
      cases List.mem_singleton.1 h
      exact ⟨[], rfl⟩
    | const value => cases List.mem_singleton.1 h
  · rintro ⟨path, -, hget⟩
    obtain ⟨_, hsplice⟩ := exists_splice_of_get? hget (.var index)
    exact hsplice.mem_symbols_of_mem_old (List.mem_singleton_self _)

/-! ## Main statement -/

/-- **The list has every position once and in order, and all measures can be read off it.**  A
path is listed exactly when an expression stands there, and no path is listed twice.  One path
is listed before another exactly when it leads to a position above the other one, or to one
below the left operand where the other one is below the right operand.  The list is as long
as the expression is large; the height is one more than the length of the longest path; the
greatest index of a variable is the greatest one found at a listed position, and there is none
where no variable is found.  A walk through the expression, with a single path that is led down
to the operands and back up, makes the same list. -/
theorem locations_enumerate (e : Expr) :
    (∀ path, path ∈ e.locations ↔ (e.get? path).isSome) ∧
    e.locations.Nodup ∧
    (∀ (i j : Nat) (p q : Path), e.locations[i]? = some p → e.locations[j]? = some q →
      (i < j ↔ p.Precedes q)) ∧
    e.locations.length = e.size ∧
    (∃ deepest ∈ e.locations, e.height = deepest.length + 1 ∧
      ∀ path ∈ e.locations, path.length ≤ deepest.length) ∧
    (∀ top, e.maxVar? = some top ↔
      (∃ path ∈ e.locations, e.get? path = some (.var top)) ∧
      ∀ path ∈ e.locations, ∀ index, e.get? path = some (.var index) → index ≤ top) ∧
    (e.maxVar? = none ↔
      ∀ path ∈ e.locations, ∀ index, e.get? path ≠ some (.var index)) ∧
    e.walk ⟨[], []⟩ = ⟨[], e.locations⟩ := by
  refine ⟨fun path => mem_locations_iff, e.pairwise_locations.imp Path.Precedes.ne,
    fun i j p q hp hq => lt_iff_precedes hp hq, e.length_locations, ?_, ?_, ?_, ?_⟩
  · obtain ⟨deepest, hdeepest, hheight⟩ := e.exists_length_eq
    refine ⟨deepest, hdeepest, hheight, ?_⟩
    intro path hpath
    have hlt := length_lt_height hpath
    omega
  · intro top
    rw [maxVar?_eq_some_iff, var_mem_symbols_iff]
    refine and_congr_right fun _ => ⟨?_, ?_⟩
    · intro hle path hpath index hget
      exact hle index (var_mem_symbols_iff.2 ⟨path, hpath, hget⟩)
    · intro hle index hs
      obtain ⟨path, hpath, hget⟩ := var_mem_symbols_iff.1 hs
      exact hle path hpath index hget
  · constructor
    · intro hnone path hpath index hget
      obtain ⟨top, htop⟩ := exists_maxVar?_of_mem (var_mem_symbols_iff.2 ⟨path, hpath, hget⟩)
      rw [hnone] at htop
      cases htop
    · intro hnowhere
      refine Option.eq_none_iff_forall_ne_some.2 fun top htop => ?_
      obtain ⟨path, hpath, hget⟩ := var_mem_symbols_iff.1 (maxVar?_eq_some_iff.1 htop).1
      exact hnowhere path hpath top hget
  · rw [walk_eq]
    simp

/-- The sum of a variable and a negated product. -/
def nested : Expr :=
  .binary ⟨"add", fun x y => x + y⟩ (.var 0)
    (.unary ⟨"negative", fun x => -x⟩ (.binary ⟨"multiply", fun x y => x * y⟩ (.var 1) (.const 2.0)))

/-- The product is listed after the negation that it is below and before its own factors, the
first of which is the variable with the greatest index. -/
theorem locations_enumerate_nested :
    nested.locations = [[], [.left], [.right], [.right, .left], [.right, .left, .left],
      [.right, .left, .right]] ∧
      Path.Precedes [.right] [.right, .left] ∧ Path.Precedes [.right, .left] [.right, .left, .right] ∧
      nested.get? [.right, .left, .left] = some (.var 1) ∧ nested.maxVar? = some 1 ∧
      ∀ path ∈ nested.locations, ∀ index, nested.get? path = some (.var index) → index ≤ 1 := by
  obtain ⟨-, -, horder, -, -, hgreatest, -, -⟩ := locations_enumerate nested
  have hproduct : nested.locations[3]? = some [.right, .left] := rfl
  have habove := (horder 2 3 _ _ rfl hproduct).1 (by decide)
  have hbelow := (horder 3 5 _ _ hproduct rfl).1 (by decide)
  have hmax : nested.maxVar? = some 1 := rfl
  exact ⟨rfl, habove, hbelow, rfl, hmax, ((hgreatest 1).1 hmax).2⟩

end Expr

end SymbolicRegression
