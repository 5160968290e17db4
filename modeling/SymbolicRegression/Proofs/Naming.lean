/-
# Names are given once

Two lists of operators make a set when no name is given twice, over both lists together.  The
names are gone through in order, and the first one that was met before is reported.  In a set
each name then leads to one operator at most, of one arity, and it leads to the operator that
was registered under it and not to another one of the same name.

* `IsFirstRepeat` : the name in a list that is the first to repeat an earlier one;
* `firstRepeated_nil_eq_some_iff` : the search for it finds it;
* `OperatorSet.ofLists_eq_ok_iff`, `OperatorSet.exists_ofLists_eq_ok_iff` : which lists make
  which set;
* `OperatorSet.ofLists_eq_duplicate_iff` : which name is reported;
* `OperatorSet.not_isSome_both` : no name has two arities.

Main statement:

* `OperatorSet.names_resolve` : **lists are accepted if their names are distinct, and names
  then resolve uniquely.**
-/
import SymbolicRegression.Proofs.Resolution

namespace SymbolicRegression

/-! ## The first repeated name -/

/-- `name` stands somewhere in a list, an equal name stands before it, and up to there no name
stands twice. -/
def IsFirstRepeat (name : String) (names : List String) : Prop :=
  ∃ before after, names = before ++ name :: after ∧ before.Nodup ∧ name ∈ before

/-- A name that has just been looked at is one that was seen, or one that stands before. -/
theorem mem_or_mem_cons_comm {name first : String} {seen before : List String} :
    name ∈ first :: seen ∨ name ∈ before ↔ name ∈ seen ∨ name ∈ first :: before := by
  rw [List.mem_cons, List.mem_cons, or_assoc, or_left_comm]

/-- Where the search stops, it would not have stopped before, and the name is one it has seen. -/
theorem exists_of_firstRepeated_eq_some {seen names : List String} {name : String}
    (h : firstRepeated seen names = some name) :
    ∃ before after, names = before ++ name :: after ∧ firstRepeated seen before = none ∧
      (name ∈ seen ∨ name ∈ before) := by
  induction names generalizing seen with
  | nil => cases h
  | cons first rest ih =>
    rw [firstRepeated] at h
    split at h
    · rename_i hseen
      cases h
      exact ⟨[], rest, rfl, rfl, .inl hseen⟩
    · rename_i hfresh
      obtain ⟨before, after, rfl, hnone, hname⟩ := ih h
      refine ⟨first :: before, after, rfl, ?_, ?_⟩
      · rw [firstRepeated, if_neg hfresh]
        exact hnone
      · exact mem_or_mem_cons_comm.1 hname

/-- The search goes past names that do not repeat, and stops at the first one that does. -/
theorem firstRepeated_append_cons {seen before : List String} {name : String}
    (h : firstRepeated seen before = none) (hname : name ∈ seen ∨ name ∈ before)
    (after : List String) : firstRepeated seen (before ++ name :: after) = some name := by
  induction before generalizing seen with
  | nil =>
    have hseen : name ∈ seen := hname.resolve_right List.not_mem_nil
    rw [List.nil_append, firstRepeated, if_pos hseen]
  | cons first before ih =>
    rw [firstRepeated] at h
    split at h
    · cases h
    · rename_i hfresh
      rw [List.cons_append, firstRepeated, if_neg hfresh]
      exact ih h (mem_or_mem_cons_comm.2 hname)

/-- **The search finds the first repeated name.** -/
theorem firstRepeated_nil_eq_some_iff {names : List String} {name : String} :
    firstRepeated [] names = some name ↔ IsFirstRepeat name names := by
  constructor
  · intro h
    obtain ⟨before, after, hsplit, hnone, hname⟩ := exists_of_firstRepeated_eq_some h
    exact ⟨before, after, hsplit, (firstRepeated_eq_none_iff.1 hnone).1,
      hname.resolve_left List.not_mem_nil⟩
  · rintro ⟨before, after, rfl, hnodup, hname⟩
    have hnone : firstRepeated [] before = none :=
      firstRepeated_eq_none_iff.2 ⟨hnodup, fun _ _ => List.not_mem_nil⟩
    exact firstRepeated_append_cons hnone (.inr hname) after

namespace OperatorSet

variable {unary : List UnaryOperator} {binary : List BinaryOperator} {ops : OperatorSet}
  {name : String}

/-! ## Accepted lists -/

/-- Non-empty lists are refused for the name at which the search stops. -/
theorem ofLists_eq_of_firstRepeated (hunary : unary ≠ []) (hbinary : binary ≠ [])
    (h : firstRepeated [] (unary.map (·.name) ++ binary.map (·.name)) = some name) :
    ofLists unary binary = .error (.duplicate name) := by
  unfold ofLists
  rw [dif_neg hunary, dif_neg hbinary]
  split
  · rename_i found hfound
    rw [h] at hfound
    cases hfound
    rfl
  · rename_i hnone
    rw [h] at hnone
    cases hnone

/-- **Two lists make the set that has them**, and no other. -/
theorem ofLists_eq_ok_iff :
    ofLists unary binary = .ok ops ↔ ops.unary = unary ∧ ops.binary = binary := by
  constructor
  · intro h
    unfold ofLists at h
    split at h
    · cases h
    split at h
    · cases h
    split at h
    · cases h
    · cases h
      exact ⟨rfl, rfl⟩
  · rintro ⟨rfl, rfl⟩
    have hnone : firstRepeated [] (ops.unary.map (·.name) ++ ops.binary.map (·.name)) = none :=
      firstRepeated_eq_none_iff.2 ⟨ops.names_nodup, fun _ _ => List.not_mem_nil⟩
    unfold ofLists
    rw [dif_neg ops.unary_ne_nil, dif_neg ops.binary_ne_nil]
    split
    · rename_i found hfound
      rw [hnone] at hfound
      cases hfound
    · rfl

/-- Lists make a set exactly when neither is empty and all names are distinct. -/
theorem exists_ofLists_eq_ok_iff :
    (∃ ops, ofLists unary binary = .ok ops) ↔
      unary ≠ [] ∧ binary ≠ [] ∧ (unary.map (·.name) ++ binary.map (·.name)).Nodup := by
  constructor
  · rintro ⟨ops, h⟩
    obtain ⟨rfl, rfl⟩ := ofLists_eq_ok_iff.1 h
    exact ⟨ops.unary_ne_nil, ops.binary_ne_nil, ops.names_nodup⟩
  · rintro ⟨hunary, hbinary, hnodup⟩
    exact ⟨⟨unary, binary, hunary, hbinary, hnodup⟩, ofLists_eq_ok_iff.2 ⟨rfl, rfl⟩⟩

/-- Only of non-empty lists is a name reported, and then it is the first repeated one. -/
theorem ofLists_eq_duplicate_iff :
    ofLists unary binary = .error (.duplicate name) ↔ unary ≠ [] ∧ binary ≠ [] ∧
      IsFirstRepeat name (unary.map (·.name) ++ binary.map (·.name)) := by
  constructor
  · intro h
    unfold ofLists at h
    split at h
    · cases h
    rename_i hunary
    split at h
    · cases h
    rename_i hbinary
    split at h
    · rename_i found hfound
      cases h
      exact ⟨hunary, hbinary, firstRepeated_nil_eq_some_iff.1 hfound⟩
    · cases h
  · rintro ⟨hunary, hbinary, hfirst⟩
    exact ofLists_eq_of_firstRepeated hunary hbinary (firstRepeated_nil_eq_some_iff.2 hfirst)

/-- Where names repeat, one of them is the first to do so. -/
theorem exists_ofLists_eq_duplicate (hunary : unary ≠ []) (hbinary : binary ≠ [])
    (hrepeat : ¬ (unary.map (·.name) ++ binary.map (·.name)).Nodup) :
    ∃ name, ofLists unary binary = .error (.duplicate name) := by
  cases hfound : firstRepeated [] (unary.map (·.name) ++ binary.map (·.name)) with
  | none => exact absurd (firstRepeated_eq_none_iff.1 hfound).1 hrepeat
  | some name => exact ⟨name, ofLists_eq_of_firstRepeated hunary hbinary hfound⟩

/-! ## Names and arities -/

/-- **No name has two arities.** -/
theorem not_isSome_both (ops : OperatorSet) (name : String) :
    ¬ ((ops.findUnary? name).isSome ∧ (ops.findBinary? name).isSome) := by
  rintro ⟨hu, hb⟩
  obtain ⟨op, hop⟩ := Option.isSome_iff_exists.1 hu
  obtain ⟨op', hop'⟩ := Option.isSome_iff_exists.1 hb
  obtain ⟨hmem, hname⟩ := findUnary?_eq_some_iff.1 hop
  obtain ⟨hmem', hname'⟩ := findBinary?_eq_some_iff.1 hop'
  have hapart := (List.nodup_append.1 ops.names_nodup).2.2
  exact hapart _ (List.mem_map_of_mem hmem) _ (List.mem_map_of_mem hmem')
    (hname.trans hname'.symm)

/-! ## Main statement -/

/-- **Lists are accepted if their names are distinct, and names then resolve uniquely.**  Two
lists of operators make a set exactly when neither is empty and no name stands twice in the two
together; the set then has exactly these lists.  If neither is empty and a name does stand
twice, the first one to repeat an earlier one, those of the unary operators coming first, is
reported, and no other.  In the set a name leads to at most one operator, unary or binary; it
leads to an operator, with all that this operator does, exactly when that operator is in the
list of its arity and has the name. -/
theorem names_resolve (unary : List UnaryOperator) (binary : List BinaryOperator) :
    ((∃ ops, ofLists unary binary = .ok ops) ↔
      unary ≠ [] ∧ binary ≠ [] ∧ (unary.map (·.name) ++ binary.map (·.name)).Nodup) ∧
    (unary ≠ [] → binary ≠ [] → ¬ (unary.map (·.name) ++ binary.map (·.name)).Nodup →
      ∃ name, ofLists unary binary = .error (.duplicate name)) ∧
    (∀ name, ofLists unary binary = .error (.duplicate name) ↔ unary ≠ [] ∧ binary ≠ [] ∧
      IsFirstRepeat name (unary.map (·.name) ++ binary.map (·.name))) ∧
    ∀ ops, ofLists unary binary = .ok ops →
      ops.unary = unary ∧ ops.binary = binary ∧
      ∀ name, ¬ ((ops.findUnary? name).isSome ∧ (ops.findBinary? name).isSome) ∧
        (∀ op, ops.findUnary? name = some op ↔ op ∈ unary ∧ op.name = name) ∧
        ∀ op, ops.findBinary? name = some op ↔ op ∈ binary ∧ op.name = name := by
  refine ⟨exists_ofLists_eq_ok_iff, exists_ofLists_eq_duplicate,
    fun name => ofLists_eq_duplicate_iff, ?_⟩
  intro ops h
  obtain ⟨rfl, rfl⟩ := ofLists_eq_ok_iff.1 h
  exact ⟨rfl, rfl, fun name => ⟨ops.not_isSome_both name, fun op => findUnary?_eq_some_iff,
    fun op => findBinary?_eq_some_iff⟩⟩

/-- Squaring and negation stand in both lists; the square is reported, whose name is the first
to stand there again.  With subtraction alone they make a set, in which the square is unary. -/
theorem names_resolve_square :
    IsFirstRepeat "square" ["negative", "square", "square", "negative"] ∧
      ofLists [⟨"negative", fun x => -x⟩, ⟨"square", fun x => x * x⟩]
        [⟨"square", fun x _ => x * x⟩, ⟨"negative", fun x _ => -x⟩] =
          .error (.duplicate "square") ∧
      ["negative", "square", "subtract"].Nodup ∧
      ∃ ops, ofLists [⟨"negative", fun x => -x⟩, ⟨"square", fun x => x * x⟩]
          [⟨"subtract", fun x y => x - y⟩] = .ok ops ∧
        ops.findUnary? "square" = some ⟨"square", fun x => x * x⟩ ∧
        ¬ ((ops.findUnary? "square").isSome ∧ (ops.findBinary? "square").isSome) := by
  have hfirst : IsFirstRepeat "square" ["negative", "square", "square", "negative"] :=
    ⟨["negative", "square"], ["negative"], rfl, by decide, by decide⟩
  have hnodup : ["negative", "square", "subtract"].Nodup := by decide
  have hrefused := (names_resolve [⟨"negative", fun x => -x⟩, ⟨"square", fun x => x * x⟩]
    [⟨"square", fun x _ => x * x⟩, ⟨"negative", fun x _ => -x⟩]).2.2.1 "square"
  obtain ⟨haccepted, -, -, hresolve⟩ :=
    names_resolve [⟨"negative", fun x => -x⟩, ⟨"square", fun x => x * x⟩]
      [⟨"subtract", fun x y => x - y⟩]
  obtain ⟨ops, hops⟩ := haccepted.2 ⟨List.cons_ne_nil _ _, List.cons_ne_nil _ _, hnodup⟩
  obtain ⟨-, -, hnames⟩ := hresolve ops hops
  obtain ⟨hone, hunary, -⟩ := hnames "square"
  have hmem : (⟨"square", fun x => x * x⟩ : UnaryOperator) ∈
      [(⟨"negative", fun x => -x⟩ : UnaryOperator), ⟨"square", fun x => x * x⟩] :=
    List.mem_cons_of_mem _ List.mem_cons_self
  exact ⟨hfirst, hrefused.2 ⟨List.cons_ne_nil _ _, List.cons_ne_nil _ _, hfirst⟩, hnodup, ops,
    hops, (hunary _).2 ⟨hmem, rfl⟩, hone⟩

end OperatorSet

end SymbolicRegression
