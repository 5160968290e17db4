/-
# The text of an expression identifies it

An expression is written with brackets and commas, and these stand nowhere else in its text if
no operator has one in its name.  So the text can be cut at the first of them: what stands
before it is the name of an operator, a variable or a constant, and what stands after it tells
which.  From there on the operands are read one after the other, each up to its end.

* `Expr.token`, `Expr.afterToken` : the text of an expression, cut at its first mark;
* `cut_unique` : a text is cut in one way only;
* `OperatorSet.HasPlainNames` : no name has a mark in it;
* `OperatorSet.hasPlainNames_standard` : the standard operators are named so;
* `Expr.eq_of_write_eq` : an expression is read off a text, together with what follows it.

Main statement:

* `Expr.text_identifies` : **expressions over plainly named operators, without NaNs, are the
  same if their texts are.**
-/
import SymbolicRegression.Operator.Standard
import SymbolicRegression.Proofs.Distinction
import SymbolicRegression.Proofs.Registration

namespace SymbolicRegression

/-! ## Marks -/

/-- The characters that hold the text of an expression together. -/
def marks : List Char := ['(', ')', ',']

/-- No mark stands in a list of characters. -/
def Unmarked (cs : List Char) : Prop := ∀ c ∈ cs, c ∉ marks

/-- **A text is cut in one way only** into what has no mark and what begins with one, if
anything is left. -/
theorem cut_unique {token token' after after' : List Char} (htoken : Unmarked token)
    (htoken' : Unmarked token') (hafter : ∀ c ∈ after.head?, c ∈ marks)
    (hafter' : ∀ c ∈ after'.head?, c ∈ marks) (h : token ++ after = token' ++ after') :
    token = token' ∧ after = after' := by
  induction token generalizing token' with
  | nil =>
    cases token' with
    | nil => exact ⟨rfl, h⟩
    | cons c cs =>
      -- the mark that begins what is left would stand in the other token
      obtain rfl : after = c :: (cs ++ after') := h
      exact absurd (hafter c rfl) (htoken' c List.mem_cons_self)
  | cons c cs ih =>
    cases token' with
    | nil =>
      obtain rfl : c :: (cs ++ after) = after' := h
      exact absurd (hafter' c rfl) (htoken c List.mem_cons_self)
    | cons c' cs' =>
      obtain ⟨rfl, htail⟩ := List.cons.inj h
      obtain ⟨rfl, hrest⟩ := ih (fun d hd => htoken d (List.mem_cons_of_mem c hd))
        (fun d hd => htoken' d (List.mem_cons_of_mem c hd)) htail
      exact ⟨rfl, hrest⟩

/-- A set of operators with no mark in any name. -/
def OperatorSet.HasPlainNames (ops : OperatorSet) : Prop := ∀ name ∈ ops.names, Unmarked name.toList

/-- The names of the standard operators are words. -/
theorem OperatorSet.hasPlainNames_standard (lib : Elementary) :
    (OperatorSet.standard lib).HasPlainNames := by
  simp [HasPlainNames, names, standard, standardUnary, standardBinary, Unmarked, marks]

/-! ## Leaves -/

/-- The characters of a variable. -/
def variableChars (index : Nat) : List Char :=
  'x' :: '[' :: ((digitsOf index).map Digit.char ++ [']'])

/-- A digit is written with no mark, and with no character that a variable has besides its
digits. -/
theorem char_not_mem (d : Digit) : d.char ∉ 'x' :: ']' :: marks := by
  revert d
  decide

/-- No mark stands in the text of a variable. -/
theorem unmarked_variableChars (index : Nat) : Unmarked (variableChars index) := by
  intro c hc
  rw [variableChars, List.mem_cons, List.mem_cons, List.mem_append, List.mem_singleton] at hc
  rcases hc with rfl | rfl | hdigit | rfl
  · decide
  · decide
  · obtain ⟨d, -, rfl⟩ := List.mem_map.1 hdigit
    exact fun hmark => char_not_mem d (List.mem_cons_of_mem _ (List.mem_cons_of_mem _ hmark))
  · decide

/-- The characters of a variable tell its index. -/
theorem eq_of_variableChars_eq {index index' : Nat}
    (h : variableChars index = variableChars index') : index = index' := by
  have hdigits : (digitsOf index).map Digit.char = (digitsOf index').map Digit.char :=
    List.append_cancel_right (List.cons.inj (List.cons.inj h).2).2
  have hspan := congrArg Numeral.spanDigits hdigits
  rw [Numeral.spanDigits_map_char, Numeral.spanDigits_map_char] at hspan
  rw [← valueOf_digitsOf index, (Prod.mk.inj hspan).1, valueOf_digitsOf]

/-- The text of a constant has neither a mark in it nor the letter of a variable. -/
theorem not_mem_of_mem_chars {s : NumeralStyle} {value : Float} {c : Char} (h : c ∈ s.chars value) :
    c ∉ 'x' :: marks := by
  rw [NumeralStyle.chars] at h
  split at h
  · rcases Numeral.mem_chars h with hmark | ⟨d, rfl⟩
    · simp only [List.mem_cons, List.not_mem_nil, or_false] at hmark
      rcases hmark with rfl | rfl | rfl | rfl <;> decide
    · intro hmem
      rcases List.mem_cons.1 hmem with hx | hmark
      · exact char_not_mem d (hx ▸ List.mem_cons_self)
      · exact char_not_mem d (List.mem_cons_of_mem _ (List.mem_cons_of_mem _ hmark))
  · -- the words for the values that are not finite
    have hword : c ∈ ['-', 'i', 'n', 'f', 'N', 'a'] := by
      split at h
      · simp only [List.mem_cons] at h ⊢
        tauto
      · split at h <;> simp only [List.mem_cons] at h ⊢ <;> tauto
    simp only [List.mem_cons, List.not_mem_nil, or_false] at hword
    rcases hword with rfl | rfl | rfl | rfl | rfl | rfl <;> decide

/-- No mark stands in the text of a constant. -/
theorem unmarked_chars (s : NumeralStyle) (value : Float) : Unmarked (s.chars value) :=
  fun _ hc hmark => not_mem_of_mem_chars hc (List.mem_cons_of_mem _ hmark)

/-- A variable is not taken for a constant. -/
theorem variableChars_ne_chars (s : NumeralStyle) (index : Nat) (value : Float) :
    variableChars index ≠ s.chars value := by
  intro h
  have hx : 'x' ∈ s.chars value := h ▸ List.mem_cons_self
  exact not_mem_of_mem_chars hx List.mem_cons_self

namespace Expr

variable {ops : OperatorSet} {e e' : Expr} {rest rest' : List Char}

/-! ## The first token -/

/-- What the text of an expression has before its first mark. -/
def token : Expr → List Char
  | .binary op _ _ => op.name.toList
  | .unary op _ => op.name.toList
  | .var index => variableChars index
  | .const value => expressionStyle.chars value

/-- What the text of an expression has from its first mark on, and `rest` after it. -/
def afterToken (rest : List Char) : Expr → List Char
  | .binary _ left right => '(' :: left.write (',' :: ' ' :: right.write (')' :: rest))
  | .unary _ operand => '(' :: operand.write (')' :: rest)
  | .var _ => rest
  | .const _ => rest

/-- A text is its first token and what comes from its first mark on. -/
theorem write_eq (e : Expr) (rest : List Char) : e.write rest = e.token ++ e.afterToken rest := by
  cases e with
  | binary op left right => rfl
  | unary op operand => rfl
  | var index =>
    rw [write, token, variableChars, afterToken, List.cons_append, List.cons_append,
      List.append_assoc]
    rfl
  | const value => rfl

/-- The characters that may follow an operand: the end of the text, a comma or a bracket. -/
def Closes (rest : List Char) : Prop := ∀ c ∈ rest.head?, c = ')' ∨ c = ','

/-- A comma and a closing bracket end an operand. -/
theorem closes_cons {c : Char} (rest : List Char) (h : c = ')' ∨ c = ',') : Closes (c :: rest) := by
  rintro _ ⟨⟩
  exact h

/-- No opening bracket follows an operand. -/
theorem Closes.ne_open (h : Closes rest) (cs : List Char) : rest ≠ '(' :: cs := by
  rintro rfl
  rcases h '(' rfl with hc | hc <;> cases hc

/-- A mark comes after the first token, if anything does. -/
theorem head?_afterToken (e : Expr) (h : Closes rest) :
    ∀ c ∈ (e.afterToken rest).head?, c ∈ marks := by
  have hrest : ∀ c ∈ rest.head?, c ∈ marks := by
    intro c hc
    rcases h c hc with rfl | rfl <;> decide
  cases e with
  | binary op left right =>
    rintro c ⟨⟩
    decide
  | unary op operand =>
    rintro c ⟨⟩
    decide
  | var index => exact hrest
  | const value => exact hrest

/-- No mark stands in the first token over operators of plain names. -/
theorem unmarked_token (hops : ops.HasPlainNames) (he : e.IsRegistered ops) : Unmarked e.token := by
  cases e with
  | binary op left right =>
    have hop := (isRegistered_binary.1 he).1
    exact hops op.name (List.mem_append_right _ (List.mem_map_of_mem hop))
  | unary op operand =>
    have hop := (isRegistered_unary.1 he).1
    exact hops op.name (List.mem_append_left _ (List.mem_map_of_mem hop))
  | var index => exact unmarked_variableChars index
  | const value => exact unmarked_chars _ value

/-! ## Reading -/

/-- An expression none of whose constants is a NaN. -/
def HasNoNaN (e : Expr) : Prop := ∀ value, Symbol.const value ∈ e.symbols → value.isNaN = false

/-- The operands of a binary operator have all its constants. -/
theorem hasNoNaN_binary {op : BinaryOperator} {left right : Expr} :
    (Expr.binary op left right).HasNoNaN ↔ left.HasNoNaN ∧ right.HasNoNaN := by
  simp only [HasNoNaN, symbols, List.mem_cons, List.mem_append, reduceCtorEq, false_or,
    or_imp, forall_and]

/-- The operand of a unary operator has all its constants. -/
theorem hasNoNaN_unary {op : UnaryOperator} {operand : Expr} :
    (Expr.unary op operand).HasNoNaN ↔ operand.HasNoNaN := by
  simp only [HasNoNaN, symbols, List.mem_cons, reduceCtorEq, false_or]

/-- A constant that is not a NaN. -/
theorem hasNoNaN_const {value : Float} :
    (Expr.const value).HasNoNaN ↔ value.isNaN = false := by
  simp [HasNoNaN, symbols]

/-- A name is that of one operator only, over both arities. -/
theorem name_ne_name {f : UnaryOperator} {g : BinaryOperator} (hf : f ∈ ops.unary)
    (hg : g ∈ ops.binary) : f.name ≠ g.name :=
  (List.nodup_append.1 ops.names_nodup).2.2 _ (List.mem_map_of_mem hf) _ (List.mem_map_of_mem hg)

/-- A binary operator of a set is told by its name. -/
theorem binary_eq_of_name_eq {f g : BinaryOperator} (hf : f ∈ ops.binary) (hg : g ∈ ops.binary)
    (h : f.name = g.name) : f = g := by
  have hfound : ops.findBinary? g.name = some f := OperatorSet.findBinary?_eq_some_iff.2 ⟨hf, h⟩
  rw [OperatorSet.findBinary?_eq_some_iff.2 ⟨hg, rfl⟩] at hfound
  exact (Option.some.inj hfound).symm

/-- A unary operator of a set is told by its name. -/
theorem unary_eq_of_name_eq {f g : UnaryOperator} (hf : f ∈ ops.unary) (hg : g ∈ ops.unary)
    (h : f.name = g.name) : f = g := by
  have hfound : ops.findUnary? g.name = some f := OperatorSet.findUnary?_eq_some_iff.2 ⟨hf, h⟩
  rw [OperatorSet.findUnary?_eq_some_iff.2 ⟨hg, rfl⟩] at hfound
  exact (Option.some.inj hfound).symm

/-- Texts that go on alike have the same first token, and the same after it. -/
theorem token_eq_of_write_eq (hops : ops.HasPlainNames) (he : e.IsRegistered ops)
    (he' : e'.IsRegistered ops) (hrest : Closes rest) (hrest' : Closes rest')
    (h : e.write rest = e'.write rest') :
    e.token = e'.token ∧ e.afterToken rest = e'.afterToken rest' := by
  rw [write_eq, write_eq] at h
  exact cut_unique (unmarked_token hops he) (unmarked_token hops he') (head?_afterToken e hrest)
    (head?_afterToken e' hrest') h

/-- **An expression is read off a text, together with what follows it.** -/
theorem eq_of_write_eq (hops : ops.HasPlainNames) (he : e.IsRegistered ops)
    (he' : e'.IsRegistered ops) (hnan : e.HasNoNaN) (hnan' : e'.HasNoNaN) (hrest : Closes rest)
    (hrest' : Closes rest') (h : e.write rest = e'.write rest') : e = e' ∧ rest = rest' := by
  induction e generalizing e' rest rest' with
  | binary op left right ihl ihr =>
    obtain ⟨htoken, hafter⟩ := token_eq_of_write_eq hops he he' hrest hrest' h
    obtain ⟨hop, hleft, hright⟩ := isRegistered_binary.1 he
    obtain ⟨hnanl, hnanr⟩ := hasNoNaN_binary.1 hnan
    cases e' with
    | binary op' left' right' =>
      obtain ⟨hop', hleft', hright'⟩ := isRegistered_binary.1 he'
      obtain ⟨hnanl', hnanr'⟩ := hasNoNaN_binary.1 hnan'
      obtain rfl := binary_eq_of_name_eq hop hop' (String.toList_inj.1 htoken)
      -- the left operand ends at the comma, the right one at the closing bracket
      obtain ⟨rfl, hcomma⟩ := ihl hleft hleft' hnanl hnanl' (closes_cons _ (.inr rfl))
        (closes_cons _ (.inr rfl)) (List.cons.inj hafter).2
      obtain ⟨rfl, hclose⟩ := ihr hright hright' hnanr hnanr' (closes_cons _ (.inl rfl))
        (closes_cons _ (.inl rfl)) (List.cons.inj (List.cons.inj hcomma).2).2
      exact ⟨rfl, (List.cons.inj hclose).2⟩
    | unary op' operand' =>
      have hop' := (isRegistered_unary.1 he').1
      exact absurd (String.toList_inj.1 htoken).symm (name_ne_name hop' hop)
    | var index' => exact absurd hafter.symm (hrest'.ne_open _)
    | const value' => exact absurd hafter.symm (hrest'.ne_open _)
  | unary op operand ih =>
    obtain ⟨htoken, hafter⟩ := token_eq_of_write_eq hops he he' hrest hrest' h
    obtain ⟨hop, hoperand⟩ := isRegistered_unary.1 he
    cases e' with
    | binary op' left' right' =>
      have hop' := (isRegistered_binary.1 he').1
      exact absurd (String.toList_inj.1 htoken) (name_ne_name hop hop')
    | unary op' operand' =>
      obtain ⟨hop', hoperand'⟩ := isRegistered_unary.1 he'
      obtain rfl := unary_eq_of_name_eq hop hop' (String.toList_inj.1 htoken)
      obtain ⟨rfl, hclose⟩ := ih hoperand hoperand' (hasNoNaN_unary.1 hnan)
        (hasNoNaN_unary.1 hnan') (closes_cons _ (.inl rfl)) (closes_cons _ (.inl rfl))
        (List.cons.inj hafter).2
      exact ⟨rfl, (List.cons.inj hclose).2⟩
    | var index' => exact absurd hafter.symm (hrest'.ne_open _)
    | const value' => exact absurd hafter.symm (hrest'.ne_open _)
  | var index =>
    obtain ⟨htoken, hafter⟩ := token_eq_of_write_eq hops he he' hrest hrest' h
    cases e' with
    | binary op' left' right' => exact absurd hafter (hrest.ne_open _)
    | unary op' operand' => exact absurd hafter (hrest.ne_open _)
    | var index' =>
      obtain rfl := eq_of_variableChars_eq htoken
      exact ⟨rfl, hafter⟩
    | const value' => exact absurd htoken (variableChars_ne_chars _ index value')
  | const value =>
    obtain ⟨htoken, hafter⟩ := token_eq_of_write_eq hops he he' hrest hrest' h
    cases e' with
    | binary op' left' right' => exact absurd hafter (hrest.ne_open _)
    | unary op' operand' => exact absurd hafter (hrest.ne_open _)
    | var index' => exact absurd htoken.symm (variableChars_ne_chars _ index' value)
    | const value' =>
      obtain rfl := NumeralStyle.eq_of_chars_eq (hasNoNaN_const.1 hnan) (hasNoNaN_const.1 hnan')
        htoken
      exact ⟨rfl, hafter⟩

/-- A constant is not written with nothing. -/
theorem chars_const_ne_nil (s : NumeralStyle) (value : Float) : s.chars value ≠ [] := by
  rw [NumeralStyle.chars]
  split
  · rename_i n hn
    rw [NumeralStyle.numeral?] at hn
    split at hn
    · obtain rfl := Option.some.inj hn
      have hread := Numeral.ofChars?_chars (s.wellFormed_numeral value)
      intro hnil
      rw [hnil] at hread
      cases hread
    · cases hn
  · split
    · exact List.cons_ne_nil _ _
    · split <;> exact List.cons_ne_nil _ _

/-- No expression is written with nothing. -/
theorem chars_ne_nil (e : Expr) : e.chars ≠ [] := by
  rw [chars, write_eq]
  cases e with
  | binary op left right => exact List.append_ne_nil_of_right_ne_nil _ (List.cons_ne_nil _ _)
  | unary op operand => exact List.append_ne_nil_of_right_ne_nil _ (List.cons_ne_nil _ _)
  | var index => exact List.append_ne_nil_of_left_ne_nil (List.cons_ne_nil _ _) _
  | const value => exact List.append_ne_nil_of_left_ne_nil (chars_const_ne_nil _ value) _

theorem text_eq_iff : e.text = e'.text ↔ e.chars = e'.chars := String.ofList_inj

/-- No expression has an empty text. -/
theorem text_ne_empty (e : Expr) : e.text ≠ "" := by
  intro h
  refine e.chars_ne_nil ?_
  rw [← String.toList_ofList (l := e.chars)]
  exact congrArg String.toList h

/-! ## Main statement -/

/-- **The text of an expression identifies it.**  Over operators with no bracket and no comma in
any name, expressions without NaNs are the same, operator by operator, variable by variable and
constant by constant, if their texts are.  So are then the expressions of individuals, one
without an expression having the empty text. -/
theorem text_identifies (hops : ops.HasPlainNames) :
    (∀ e e' : Expr, e.IsRegistered ops → e'.IsRegistered ops → e.HasNoNaN → e'.HasNoNaN →
      (e.text = e'.text ↔ e = e')) ∧
    ∀ i j : Individual, (∀ e, i.root = some e → e.IsRegistered ops ∧ e.HasNoNaN) →
      (∀ e, j.root = some e → e.IsRegistered ops ∧ e.HasNoNaN) →
      (i.text = j.text ↔ i.root = j.root) := by
  have hidentifies (e e' : Expr) (he : e.IsRegistered ops) (he' : e'.IsRegistered ops)
      (hnan : e.HasNoNaN) (hnan' : e'.HasNoNaN) : e.text = e'.text ↔ e = e' := by
    refine ⟨fun h => ?_, congrArg text⟩
    have hnil : Closes [] := by
      rintro c ⟨⟩
    exact (eq_of_write_eq hops he he' hnan hnan' hnil hnil (text_eq_iff.1 h)).1
  refine ⟨hidentifies, fun i j hi hj => ⟨fun h => ?_, fun h => ?_⟩⟩
  · rw [Individual.text, Individual.text] at h
    cases hroot : i.root with
    | none =>
      cases hroot' : j.root with
      | none => rfl
      | some e' =>
        rw [hroot, hroot'] at h
        exact absurd h.symm e'.text_ne_empty
    | some e =>
      cases hroot' : j.root with
      | none =>
        rw [hroot, hroot'] at h
        exact absurd h e.text_ne_empty
      | some e' =>
        rw [hroot, hroot'] at h
        obtain ⟨he, hnan⟩ := hi e hroot
        obtain ⟨he', hnan'⟩ := hj e' hroot'
        rw [(hidentifies e e' he he' hnan hnan').1 h]
  · rw [Individual.text, Individual.text, h]

/-- The sum of the variable and a constant. -/
def shifted (value : Float) : Expr := .binary ⟨"add", Kernel.add⟩ (.var 0) (.const value)

/-- The two zeros are told apart, in the sum of the variable and a zero. -/
theorem text_identifies_shifted :
    (OperatorSet.standard .platform).HasPlainNames ∧
      (∀ value, (shifted value).IsRegistered (.standard .platform)) ∧
      (shifted 0.0).HasNoNaN ∧ (shifted (-0.0)).HasNoNaN ∧
      (shifted 0.0).text ≠ (shifted (-0.0)).text := by
  have hops := OperatorSet.hasPlainNames_standard .platform
  have hregistered (value : Float) : (shifted value).IsRegistered (.standard .platform) := by
    refine isRegistered_binary.2 ⟨List.mem_cons_self, isRegistered_var, ?_⟩
    intro symbol hs
    cases List.mem_singleton.1 hs
    trivial
  have hnumber {value : Float} (h : value.isNaN = false) : (shifted value).HasNoNaN := by
    refine hasNoNaN_binary.2 ⟨?_, hasNoNaN_const.2 h⟩
    intro found hfound
    cases List.mem_singleton.1 hfound
  have hzero : (shifted 0.0).HasNoNaN := hnumber (by decide)
  have hminus : (shifted (-0.0)).HasNoNaN := hnumber (by decide)
  refine ⟨hops, hregistered, hzero, hminus, fun h => ?_⟩
  have hsame := ((text_identifies hops).1 _ _ (hregistered _) (hregistered _) hzero hminus).1 h
  have hbits : (0.0 : Float) ≠ -0.0 := by decide
  exact hbits (Expr.const.inj (Expr.binary.inj hsame).2.2)

end Expr

end SymbolicRegression
