/-
# Written JSON is read back

From the tokens of a value the reader builds the value again: with the arrays and
objects that are open on its stack, it comes to the end of the tokens of a value
exactly when that value is complete.

* `Reading.foldlM_tokens` : what the reader makes of the tokens of a value;
* `Json.ofTokens?_tokens` : **a value is read from its tokens**;
* `Json.ofText?_pretty`, `Json.ofText?_compact` : **a plain value is read from its text.**
-/
import SymbolicRegression.Json.Parser
import SymbolicRegression.Proofs.JsonTokens

namespace SymbolicRegression

namespace Reading

/-- No array starts with its end where an item starts. -/
theorem step_firstItem (stack : List Frame) {token : Token} (h : token ≠ .closeBracket) :
    step (.firstItem stack) token = step (.value (.array [] :: stack)) token := by
  cases token <;> first | rfl | exact absurd rfl h

/-- The first token of a value is not the end of an array. -/
theorem exists_tokens_eq_cons (json : Json) :
    ∃ token later, json.tokens = token :: later ∧ token ≠ .closeBracket := by
  match json with
  | .null | .bool _ | .number _ | .string _ | .array [] | .object [] =>
    exact ⟨_, _, by rw [Json.tokens], by rintro ⟨⟩⟩
  | .array (_ :: _) | .object ((_, _) :: _) => exact ⟨_, _, by rw [Json.tokens], by rintro ⟨⟩⟩

/-- The first item of an array is read like any other. -/
theorem foldlM_firstItem (stack : List Frame) (json : Json) (later : List Token) :
    (json.tokens ++ later).foldlM step (.firstItem stack) =
      (json.tokens ++ later).foldlM step (.value (.array [] :: stack)) := by
  obtain ⟨token, rest, htokens, htoken⟩ := exists_tokens_eq_cons json
  rw [htokens, List.cons_append, List.foldlM_cons, List.foldlM_cons, step_firstItem stack htoken]

mutual

/-- **At the end of the tokens of a value that value is complete.** -/
theorem foldlM_tokens (json : Json) (stack : List Frame) (later : List Token) :
    (json.tokens ++ later).foldlM step (.value stack) = later.foldlM step (.complete json stack) := by
  match json with
  | .null | .bool _ | .number _ | .string _ | .array [] | .object [] =>
    rw [Json.tokens]
    rfl
  | .array (item :: items) =>
    rw [Json.tokens, List.cons_append, List.append_assoc, List.append_assoc, List.foldlM_cons]
    show (item.tokens ++ _).foldlM step (.firstItem stack) = _
    rw [foldlM_firstItem, foldlM_tokens item, List.singleton_append, foldlM_itemTokens items]
    rfl
  | .object ((key, first) :: members) =>
    rw [Json.tokens, List.cons_append, List.cons_append, List.cons_append, List.append_assoc,
      List.append_assoc]
    show (first.tokens ++ _).foldlM step (.value (.object [] key :: stack)) = _
    rw [foldlM_tokens first, List.singleton_append, foldlM_memberTokens members]
    rfl

/-- At the end of the tokens of an array the array is complete. -/
theorem foldlM_itemTokens (items : List Json) (seen : List Json) (item : Json)
    (stack : List Frame) (later : List Token) :
    (Json.itemTokens items ++ .closeBracket :: later).foldlM step
        (.complete item (.array seen :: stack)) =
      later.foldlM step (.complete (.array ((item :: seen).reverse ++ items)) stack) := by
  match items with
  | [] =>
    rw [List.append_nil]
    rfl
  | next :: items =>
    rw [Json.itemTokens, List.cons_append, List.append_assoc]
    show (next.tokens ++ _).foldlM step (.value (.array (item :: seen) :: stack)) = _
    rw [foldlM_tokens next, foldlM_itemTokens items, List.reverse_cons, List.append_assoc]
    rfl

/-- At the end of the tokens of an object the object is complete. -/
theorem foldlM_memberTokens (members : List (JsonText × Json)) (seen : List (JsonText × Json))
    (key : JsonText) (member : Json) (stack : List Frame) (later : List Token) :
    (Json.memberTokens members ++ .closeBrace :: later).foldlM step
        (.complete member (.object seen key :: stack)) =
      later.foldlM step (.complete (.object (((key, member) :: seen).reverse ++ members)) stack) := by
  match members with
  | [] =>
    rw [List.append_nil]
    rfl
  | (key', next) :: members =>
    rw [Json.memberTokens, List.cons_append, List.cons_append, List.cons_append, List.append_assoc]
    show (next.tokens ++ _).foldlM step
      (.value (.object ((key, member) :: seen) key' :: stack)) = _
    rw [foldlM_tokens next, foldlM_memberTokens members, List.reverse_cons,
      List.append_assoc]
    rfl

end

end Reading

namespace Json

/-- **A value is read from its tokens.** -/
theorem ofTokens?_tokens (json : Json) : ofTokens? json.tokens = some json := by
  have h := Reading.foldlM_tokens json [] []
  rw [List.append_nil] at h
  rw [ofTokens?, h]
  rfl

theorem ofChars?_write (level : Option Nat) {json : Json} (h : json.Plain) :
    ofChars? (json.write level []) = some json := by
  rw [ofChars?, Token.scan?_write level h]
  exact ofTokens?_tokens json

/-- **A plain value is read from its indented text.** -/
theorem ofText?_pretty {json : Json} (h : json.Plain) : ofText? json.pretty = some json := by
  rw [ofText?, pretty, String.toList_ofList]
  exact ofChars?_write (some 0) h

/-- **A plain value is read from its text on one line.** -/
theorem ofText?_compact {json : Json} (h : json.Plain) : ofText? json.compact = some json := by
  rw [ofText?, compact, String.toList_ofList]
  exact ofChars?_write none h

end Json

end SymbolicRegression
