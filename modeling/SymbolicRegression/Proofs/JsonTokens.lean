/-
# The tokens of written JSON

The characters that the writer puts down for a value are scanned to the tokens of
the value, whatever the indentation.  A word or a numeral ends only where a character
follows that cannot go on with it, so the statements carry what follows along with
the condition that it breaks the token under way.

* `Json.Plain` : values with well-formed numerals and without halves of surrogate pairs;
* `Json.tokens` : the tokens of a value;
* `Scan.run` : what is scanned from a state on;
* `Scan.run_quoted` : a text between quotes is scanned to its units;
* `Scan.run_write` : **a plain value is scanned to its tokens.**
-/
import SymbolicRegression.Json.Printer
import SymbolicRegression.Json.Token
import SymbolicRegression.Proofs.Numeral

namespace SymbolicRegression

/-! ## Plain values -/

/-- A text that consists of characters. -/
def JsonText.Plain (text : JsonText) : Prop := ∃ cs : List Char, text = cs.map .char

theorem JsonText.plain_ofString (s : String) : (JsonText.ofString s).Plain := ⟨s.toList, rfl⟩

namespace Json

mutual

/-- A value whose numerals are well-formed and whose texts consist of characters. -/
def Plain : Json → Prop
  | .null | .bool _ => True
  | .number n => n.WellFormed
  | .string text => text.Plain
  | .array items => ItemsPlain items
  | .object members => MembersPlain members

/-- Items that are plain. -/
def ItemsPlain : List Json → Prop
  | [] => True
  | item :: items => item.Plain ∧ ItemsPlain items

/-- Members whose keys and values are plain. -/
def MembersPlain : List (JsonText × Json) → Prop
  | [] => True
  | (key, value) :: members => key.Plain ∧ value.Plain ∧ MembersPlain members

end

/-- A natural number is plain. -/
theorem plain_ofNat (n : Nat) : (ofNat n).Plain := Numeral.wellFormed_ofNat n

theorem plain_ofString (s : String) : (ofString s).Plain := JsonText.plain_ofString s

/-- An object with named members is plain when the values are. -/
theorem plain_ofMembers {members : List (String × Json)} (h : ∀ member ∈ members, member.2.Plain) :
    (ofMembers members).Plain := by
  rw [ofMembers, Plain]
  induction members with
  | nil => trivial
  | cons member members ih =>
    rw [List.forall_mem_cons] at h
    exact ⟨JsonText.plain_ofString member.1, h.1, ih h.2⟩

/-! ## The tokens of a value -/

mutual

/-- The tokens of a value. -/
def tokens : Json → List Token
  | .null => [.null]
  | .bool b => [.bool b]
  | .number n => [.number n]
  | .string text => [.string text]
  | .array [] => [.openBracket, .closeBracket]
  | .array (item :: items) => .openBracket :: (tokens item ++ (itemTokens items ++ [.closeBracket]))
  | .object [] => [.openBrace, .closeBrace]
  | .object ((key, value) :: members) =>
      .openBrace :: .string key :: .colon ::
        (tokens value ++ (memberTokens members ++ [.closeBrace]))

/-- The tokens of the items of an array after the first one. -/
def itemTokens : List Json → List Token
  | [] => []
  | item :: items => .comma :: (tokens item ++ itemTokens items)

/-- The tokens of the members of an object after the first one. -/
def memberTokens : List (JsonText × Json) → List Token
  | [] => []
  | (key, value) :: members =>
      .comma :: .string key :: .colon :: (tokens value ++ memberTokens members)

end

end Json

/-! ## Characters that end a token -/

/-- What follows a word or a numeral without going on with it. -/
def Breaks (rest : List Char) : Prop :=
  ∀ c ∈ rest.head?, isLetter c = false ∧ continuesNumeral c = false

/-- The end of the text breaks. -/
theorem breaks_nil : Breaks [] := by
  rintro c ⟨⟩

/-- A comma, the end of a line and a closing mark break. -/
theorem breaks_cons {c : Char} (rest : List Char) (h : c ∈ [',', '\n', ']', '}']) :
    Breaks (c :: rest) := by
  rintro c' ⟨⟩
  simp only [List.mem_cons, List.not_mem_nil, or_false] at h
  rcases h with rfl | rfl | rfl | rfl <;> decide

/-- The start of a line breaks, or else the mark that comes after it. -/
theorem breaks_lineStart_append (level : Option Nat) {mark : Char} (rest : List Char)
    (h : mark ∈ [',', '\n', ']', '}']) : Breaks (lineStart level ++ mark :: rest) := by
  cases level with
  | none => exact breaks_cons rest h
  | some level => exact breaks_cons _ (by decide)

/-- A word or a numeral ends before the items that follow. -/
theorem breaks_writeItems {level : Option Nat} {rest : List Char} (items : List Json)
    (h : Breaks rest) : Breaks (Json.writeItems level rest items) := by
  cases items with
  | nil => exact h
  | cons item items => exact breaks_cons _ (by decide)

/-- A word or a numeral ends before the members that follow. -/
theorem breaks_writeMembers {level : Option Nat} {rest : List Char}
    (members : List (JsonText × Json)) (h : Breaks rest) :
    Breaks (Json.writeMembers level rest members) := by
  cases members with
  | nil => exact h
  | cons member members => exact breaks_cons _ (by decide)

namespace Scan

/-! ## Scanning on -/

/-- What is scanned from a state on. -/
def run (state : Scan × List Token) (cs : List Char) : Option (List Token) := do
  let (scan, tokens) ← cs.foldlM step state
  let ended ← scan.finish
  return (ended.toList ++ tokens).reverse

theorem scan?_eq (cs : List Char) : Token.scan? cs = run (.idle, []) cs := rfl

theorem run_idle_nil (tokens : List Token) : run (.idle, tokens) [] = some tokens.reverse := rfl

/-- Scanning goes on after the step of one character. -/
theorem run_cons (state : Scan × List Token) (c : Char) (rest : List Char) :
    run state (c :: rest) = (step state c).bind fun next => run next rest := by
  rw [run, List.foldlM_cons, Option.bind_eq_bind, Option.bind_eq_bind, Option.bind_assoc]
  rfl

/-- A character that makes a known step. -/
theorem run_of_step {state next : Scan × List Token} {c : Char} (rest : List Char)
    (h : step state c = some next) : run state (c :: rest) = run next rest := by
  rw [run_cons, h, Option.bind_some]

/-- A token under way is ended by what does not go on with it. -/
theorem run_of_finish {scan : Scan} {token : Token} {tokens : List Token} {rest : List Char}
    (hfinish : scan.finish = some (some token))
    (hstep : ∀ c ∈ rest.head?, step (scan, tokens) c = step (.idle, token :: tokens) c) :
    run (scan, tokens) rest = run (.idle, token :: tokens) rest := by
  cases rest with
  | nil =>
    show (scan.finish.bind fun ended => some (ended.toList ++ tokens).reverse) = _
    rw [hfinish]
    rfl
  | cons c rest => rw [run_cons, run_cons, hstep c rfl]

/-- A word is ended by what breaks it. -/
theorem run_word {letters : List Char} {token : Token} {tokens : List Token} {rest : List Char}
    (h : Token.ofWord? letters.reverse = some token) (hrest : Breaks rest) :
    run (.word letters, tokens) rest = run (.idle, token :: tokens) rest := by
  have hfinish : (Scan.word letters).finish = some (some token) := by rw [finish, h]; rfl
  refine run_of_finish hfinish fun c hc => ?_
  rw [step, (hrest c hc).1, hfinish, step]
  simp

/-! ## Numerals -/

/-- The characters of a numeral that goes on are gathered. -/
theorem run_numeral_append {seen cs : List Char} {tokens : List Token} (rest : List Char)
    (h : ∀ c ∈ cs, continuesNumeral c = true) :
    run (.numeral seen, tokens) (cs ++ rest) = run (.numeral (cs.reverse ++ seen), tokens) rest := by
  induction cs generalizing seen with
  | nil => rfl
  | cons c cs ih =>
    rw [List.forall_mem_cons] at h
    have hstep : step (.numeral seen, tokens) c = some (.numeral (c :: seen), tokens) := by
      rw [step, if_pos h.1]
    rw [List.cons_append, run_of_step _ hstep, ih h.2, List.reverse_cons, List.append_assoc]
    rfl

/-- A digit starts a numeral, and does not start anything else. -/
theorem start_char (d : Digit) : start d.char = some (.numeral [d.char], none) := by
  obtain ⟨hblank, hquote, hletter, hstarts⟩ : isBlank d.char = false ∧ d.char ≠ '"' ∧
      isLetter d.char = false ∧ startsNumeral d.char = true := by
    revert d
    decide
  rw [start, hblank, if_neg (by decide), if_neg hquote, hletter, if_neg (by decide), if_pos hstarts]

theorem continuesNumeral_char (d : Digit) : continuesNumeral d.char = true := by
  revert d
  decide

/-- All characters of a numeral go on with a numeral. -/
theorem continuesNumeral_of_mem_chars {n : Numeral} {c : Char} (h : c ∈ n.chars) :
    continuesNumeral c = true := by
  rcases Numeral.mem_chars h with hmark | ⟨d, rfl⟩
  · simp only [List.mem_cons, List.not_mem_nil, or_false] at hmark
    rcases hmark with rfl | rfl | rfl | rfl <;> decide
  · exact continuesNumeral_char d

/-- The characters of a numeral: one that starts it, and others that go on with it. -/
theorem exists_chars_eq_cons {n : Numeral} (h : n.WellFormed) :
    ∃ c cs, n.chars = c :: cs ∧ start c = some (.numeral [c], none) ∧
      ∀ c ∈ cs, continuesNumeral c = true := by
  obtain ⟨c, cs, hchars, hstart⟩ :
      ∃ c cs, n.chars = c :: cs ∧ start c = some (.numeral [c], none) := by
    rw [Numeral.chars_eq]
    cases n.negative with
    | true => exact ⟨'-', _, rfl, rfl⟩
    | false =>
      obtain ⟨d, ds, hwhole⟩ := List.exists_cons_of_ne_nil h.whole_ne_nil
      rw [hwhole]
      exact ⟨d.char, _, rfl, start_char d⟩
  refine ⟨c, cs, hchars, hstart, fun later hlater => ?_⟩
  have hmem : later ∈ n.chars := by
    rw [hchars]
    exact List.mem_cons_of_mem c hlater
  exact continuesNumeral_of_mem_chars hmem

/-- A numeral is scanned to its token. -/
theorem run_chars {n : Numeral} {tokens : List Token} {rest : List Char} (h : n.WellFormed)
    (hrest : Breaks rest) :
    run (.idle, tokens) (n.chars ++ rest) = run (.idle, .number n :: tokens) rest := by
  obtain ⟨c, cs, hchars, hstart, hcs⟩ := exists_chars_eq_cons h
  have hfirst : step (.idle, tokens) c = some (.numeral [c], tokens) := by
    rw [step, hstart]
    rfl
  have hread : Numeral.ofChars? (cs.reverse ++ [c]).reverse = some n := by
    rw [List.reverse_append, List.reverse_reverse, List.reverse_singleton, List.singleton_append,
      ← hchars]
    exact Numeral.ofChars?_chars h
  have hfinish : (Scan.numeral (cs.reverse ++ [c])).finish = some (some (.number n)) := by
    rw [finish, hread]
    rfl
  rw [hchars, List.cons_append, run_of_step _ hfirst, run_numeral_append rest hcs]
  refine run_of_finish hfinish fun c hc => ?_
  rw [step, (hrest c hc).2, hfinish, step]
  simp

/-! ## Strings -/

/-- A hexadecimal digit is read back. -/
theorem hexValue?_hexChar {n : Nat} (h : n < 16) : hexValue? (hexChar n) = some n := by
  revert n
  decide

/-- Below the surrogates a code is that of a character. -/
theorem pushCode_of_lt {code : Nat} (units : List TextUnit) (h : code < 0xD800) :
    pushCode units code = .char (Char.ofNat code) :: units := by
  have hlow : isLowHalf code = false := by
    rw [isLowHalf, Bool.and_eq_false_iff]
    exact .inl (decide_eq_false (by omega))
  have hhigh : isHighHalf code = false := by
    rw [isHighHalf, Bool.and_eq_false_iff]
    exact .inl (decide_eq_false (by omega))
  unfold pushCode
  rw [hlow, hhigh]
  rfl

/-- An escape by code is scanned to the character of the code. -/
theorem run_codeEscape {code : Nat} {units : List TextUnit} {tokens : List Token}
    (rest : List Char) (h : code < 0xD800) :
    run (.string units, tokens) (codeEscape code ++ rest) =
      run (.string (.char (Char.ofNat code) :: units), tokens) rest := by
  have hdigit (count value n : Nat) (hn : n < 16) (hcount : count ≠ 3) :
      step (.code units count value, tokens) (hexChar n) =
        some (.code units (count + 1) (16 * value + n), tokens) := by
    rw [step, hexValue?_hexChar hn, Option.bind_eq_bind, Option.bind_some, if_neg hcount]
    rfl
  have hlast (value n : Nat) (hn : n < 16) :
      step (.code units 3 value, tokens) (hexChar n) =
        some (.string (pushCode units (16 * value + n)), tokens) := by
    rw [step, hexValue?_hexChar hn, Option.bind_eq_bind, Option.bind_some, if_pos rfl]
    rfl
  have hcode : 16 * (16 * (16 * (16 * 0 + code / 4096 % 16) + code / 256 % 16) + code / 16 % 16)
      + code % 16 = code := by
    omega
  simp only [codeEscape, List.cons_append, List.nil_append]
  rw [run_of_step _ (show step (.string units, tokens) '\\' = some (.escape units, tokens) from rfl),
    run_of_step _ (show step (.escape units, tokens) 'u' = some (.code units 0 0, tokens) from rfl),
    run_of_step _ (hdigit 0 _ _ (by omega) (by decide)),
    run_of_step _ (hdigit 1 _ _ (by omega) (by decide)),
    run_of_step _ (hdigit 2 _ _ (by omega) (by decide)),
    run_of_step _ (hlast _ _ (by omega)), hcode, pushCode_of_lt _ h]

/-- A backslash and a letter are scanned to what the letter stands for. -/
theorem run_escape {c e : Char} {units : List TextUnit} {tokens : List Token} (rest : List Char)
    (hu : c ≠ 'u') (h : escaped? c = some e) :
    run (.string units, tokens) ('\\' :: c :: rest) =
      run (.string (.char e :: units), tokens) rest := by
  rw [run_of_step _ (show step (.string units, tokens) '\\' = some (.escape units, tokens) from rfl)]
  refine run_of_step _ ?_
  rw [step, if_neg hu, h]
  rfl

/-- A character inside a string is read back. -/
theorem run_quotedChar (c : Char) {units : List TextUnit} {tokens : List Token}
    (rest : List Char) :
    run (.string units, tokens) (quotedChar c ++ rest) =
      run (.string (.char c :: units), tokens) rest := by
  have hcontrol {code : Nat} (h : c.toNat = code) : c = Char.ofNat code := by
    rw [← h, Char.ofNat_toNat]
  unfold quotedChar
  split
  next hquote => exact run_escape rest (by decide) (by rw [hquote]; rfl)
  next hquote =>
  split
  next hbackslash => exact run_escape rest (by decide) (by rw [hbackslash]; rfl)
  next hbackslash =>
  split
  next h => exact run_escape rest (by decide) (by rw [hcontrol h]; rfl)
  split
  next h => exact run_escape rest (by decide) (by rw [hcontrol h]; rfl)
  split
  next h => exact run_escape rest (by decide) (by rw [hcontrol h]; rfl)
  split
  next h => exact run_escape rest (by decide) (by rw [hcontrol h]; rfl)
  split
  next h => exact run_escape rest (by decide) (by rw [hcontrol h]; rfl)
  split
  next hlow => rw [run_codeEscape rest (by omega), Char.ofNat_toNat]
  next hlow =>
    refine run_of_step _ ?_
    rw [step, stringStep, if_neg hquote, if_neg hbackslash, if_neg hlow]
    rfl

/-- The characters of a string are scanned one by one, escaped or not. -/
theorem run_quotedChars (cs : List Char) {units : List TextUnit} {tokens : List Token}
    (rest : List Char) :
    run (.string units, tokens) ((cs.map TextUnit.char).flatMap TextUnit.quoted ++ rest) =
      run (.string ((cs.map TextUnit.char).reverse ++ units), tokens) rest := by
  induction cs generalizing units with
  | nil => rfl
  | cons c cs ih =>
    rw [List.map_cons, List.flatMap_cons, List.append_assoc, TextUnit.quoted, run_quotedChar, ih,
      List.reverse_cons, List.append_assoc]
    rfl

/-- A text between quotes is scanned to its token. -/
theorem run_quoted {text : JsonText} {tokens : List Token} (rest : List Char) (h : text.Plain) :
    run (.idle, tokens) (text.quoted ++ rest) = run (.idle, .string text :: tokens) rest := by
  obtain ⟨cs, rfl⟩ := h
  have hopen : step (.idle, tokens) '"' = some (.string [], tokens) := rfl
  rw [JsonText.quoted, List.cons_append, run_of_step _ hopen, List.append_assoc, run_quotedChars,
    List.append_nil, List.singleton_append]
  refine run_of_step _ ?_
  rw [step, stringStep, if_pos rfl, Option.bind_eq_bind, Option.bind_some, List.reverse_reverse]
  rfl

/-! ## Values -/

/-- Blanks make no token. -/
theorem run_blanks (count : Nat) {tokens : List Token} (rest : List Char) :
    run (.idle, tokens) (List.replicate count ' ' ++ rest) = run (.idle, tokens) rest := by
  induction count with
  | zero => rfl
  | succ count ih =>
    have hblank : step (.idle, tokens) ' ' = some (.idle, tokens) := rfl
    rw [List.replicate_succ, List.cons_append, run_of_step _ hblank, ih]

/-- The start of a line makes no token. -/
theorem run_lineStart (level : Option Nat) {tokens : List Token} (rest : List Char) :
    run (.idle, tokens) (lineStart level ++ rest) = run (.idle, tokens) rest := by
  cases level with
  | none => rfl
  | some level =>
    have hend : step (.idle, tokens) '\n' = some (.idle, tokens) := rfl
    rw [lineStart, List.cons_append, run_of_step _ hend, run_blanks]

/-- What stands between a key and its value makes one token. -/
theorem run_keySeparator (level : Option Nat) {tokens : List Token} (rest : List Char) :
    run (.idle, tokens) (keySeparator level ++ rest) = run (.idle, .colon :: tokens) rest := by
  have hcolon : step (.idle, tokens) ':' = some (.idle, .colon :: tokens) := rfl
  have hblank : step (.idle, Token.colon :: tokens) ' ' = some (.idle, .colon :: tokens) := rfl
  cases level with
  | none => exact run_of_step rest hcolon
  | some level => exact (run_of_step (' ' :: rest) hcolon).trans (run_of_step rest hblank)

/-- A mark is a token of its own. -/
theorem run_mark {mark : Char} {token : Token} {tokens : List Token} (rest : List Char)
    (h : start mark = some (.idle, some token)) :
    run (.idle, tokens) (mark :: rest) = run (.idle, token :: tokens) rest := by
  refine run_of_step rest ?_
  rw [step, h]
  rfl

mutual

/-- **A plain value is scanned to its tokens**, at every level of indentation. -/
theorem run_write (level : Option Nat) (json : Json) {rest : List Char} {before : List Token}
    (hjson : json.Plain) (hrest : Breaks rest) :
    run (.idle, before) (json.write level rest) = run (.idle, json.tokens.reverse ++ before) rest := by
  match json, hjson with
  | .null, _ =>
    rw [Json.write, Json.tokens]
    exact run_word rfl hrest
  | .bool true, _ =>
    rw [Json.write, Json.tokens]
    exact run_word rfl hrest
  | .bool false, _ =>
    rw [Json.write, Json.tokens]
    exact run_word rfl hrest
  | .number n, hjson =>
    rw [Json.write, Json.tokens]
    exact run_chars hjson hrest
  | .string text, hjson =>
    rw [Json.write, Json.tokens]
    exact run_quoted rest hjson
  | .array [], _ =>
    rw [Json.write, Json.tokens, run_mark _ rfl]
    exact run_mark _ rfl
  | .array (item :: items), hjson =>
    obtain ⟨hitem, hitems⟩ := hjson
    have hclose : Breaks (lineStart level ++ ']' :: rest) :=
      breaks_lineStart_append level rest (by decide)
    rw [Json.write, Json.tokens, run_mark _ rfl, run_lineStart,
      run_write (deeper level) item hitem (breaks_writeItems items hclose),
      run_writeItems (deeper level) items hitems hclose, run_lineStart, run_mark _ rfl]
    simp
  | .object [], _ =>
    rw [Json.write, Json.tokens, run_mark _ rfl]
    exact run_mark _ rfl
  | .object ((key, value) :: members), hjson =>
    obtain ⟨hkey, hvalue, hmembers⟩ := hjson
    have hclose : Breaks (lineStart level ++ '}' :: rest) :=
      breaks_lineStart_append level rest (by decide)
    rw [Json.write, Json.tokens, run_mark _ rfl, run_lineStart, run_quoted _ hkey,
      run_keySeparator, run_write (deeper level) value hvalue (breaks_writeMembers members hclose),
      run_writeMembers (deeper level) members hmembers hclose, run_lineStart, run_mark _ rfl]
    simp

/-- The items of an array after the first one are scanned to their tokens. -/
theorem run_writeItems (level : Option Nat) (items : List Json) {rest : List Char}
    {before : List Token} (hitems : Json.ItemsPlain items) (hrest : Breaks rest) :
    run (.idle, before) (Json.writeItems level rest items) =
      run (.idle, (Json.itemTokens items).reverse ++ before) rest := by
  match items, hitems with
  | [], _ => rfl
  | item :: items, ⟨hitem, hitems⟩ =>
    rw [Json.writeItems, Json.itemTokens, run_mark _ rfl, run_lineStart,
      run_write level item hitem (breaks_writeItems items hrest),
      run_writeItems level items hitems hrest]
    simp

/-- The members of an object after the first one are scanned to their tokens. -/
theorem run_writeMembers (level : Option Nat) (members : List (JsonText × Json))
    {rest : List Char} {before : List Token} (hmembers : Json.MembersPlain members)
    (hrest : Breaks rest) :
    run (.idle, before) (Json.writeMembers level rest members) =
      run (.idle, (Json.memberTokens members).reverse ++ before) rest := by
  match members, hmembers with
  | [], _ => rfl
  | (key, value) :: members, ⟨hkey, hvalue, hmembers⟩ =>
    rw [Json.writeMembers, Json.memberTokens, run_mark _ rfl, run_lineStart, run_quoted _ hkey,
      run_keySeparator, run_write level value hvalue (breaks_writeMembers members hrest),
      run_writeMembers level members hmembers hrest]
    simp

end

end Scan

/-- The tokens of a written value are its tokens. -/
theorem Token.scan?_write (level : Option Nat) {json : Json} (h : json.Plain) :
    Token.scan? (json.write level []) = some json.tokens := by
  rw [Scan.scan?_eq, Scan.run_write level json h breaks_nil, List.append_nil, Scan.run_idle_nil,
    List.reverse_reverse]

end SymbolicRegression
