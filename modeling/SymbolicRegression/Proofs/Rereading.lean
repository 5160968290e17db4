/-
# What is read where a record was written

A record that is written and read again keeps its names, its shape and its natural
numbers, as long as these fit into a word.  A double may change: the reader does not
always come back to the double that the digits were written for.  And an expression is
read only up to a certain height, while it is written at any.

* `Json.reread?` : what is read where a double was written;
* `ExprRecord.ofJson?_toJson`, `Settings.ofJson?_toJson`, `Record.ofJson?_toJson` : what
  is read where a record was written;
* `Individual.load_save` : **loading what was saved is restoring the record as reread.**
-/
import SymbolicRegression.Proofs.JsonReading
import SymbolicRegression.Record.Basic

namespace SymbolicRegression

/-! ## Named members -/

/-- Where all keys differ, a key picks out its member. -/
theorem filter_key_eq {α : Type} {members : List (String × α)}
    (hnodup : (members.map (·.1)).Nodup) {name : String} {value : α}
    (h : (name, value) ∈ members) :
    (members.filter fun member => member.1 == name) = [(name, value)] := by
  induction members with
  | nil => cases h
  | cons member members ih =>
    rw [List.map_cons, List.nodup_cons] at hnodup
    obtain ⟨hfresh, hnodup⟩ := hnodup
    rw [List.filter_cons]
    by_cases hname : member.1 = name
    · rw [if_pos (beq_iff_eq.2 hname)]
      have hnone : (members.filter fun member => member.1 == name) = [] := by
        rw [List.filter_eq_nil_iff]
        intro later hlater hkey
        -- a later member of this name would repeat the key
        exact hfresh (List.mem_map.2 ⟨later, hlater, (beq_iff_eq.1 hkey).trans hname.symm⟩)
      rcases List.mem_cons.1 h with rfl | h
      · rw [hnone]
      · have hrepeat : member.1 ∈ members.map (·.1) := List.mem_map.2 ⟨_, h, hname.symm⟩
        exact absurd hrepeat hfresh
    · rw [if_neg fun hkey => hname (beq_iff_eq.1 hkey)]
      refine ih hnodup ?_
      rcases List.mem_cons.1 h with rfl | h
      · exact absurd rfl hname
      · exact h

/-- Reading a list whose members can all be read. -/
theorem mapM_map_eq_some {α β γ : Type} {read : β → Option γ} (key : α → β) (value : α → γ)
    {xs : List α} (h : ∀ x ∈ xs, read (key x) = some (value x)) :
    (xs.map key).mapM read = some (xs.map value) := by
  induction xs with
  | nil => rfl
  | cons x xs ih =>
    rw [List.forall_mem_cons] at h
    rw [List.map_cons, List.mapM_cons, h.1, ih h.2]
    rfl

namespace Json

/-- The keys that are written as strings are read as these strings. -/
theorem named?_map_ofString (members : List (String × Json)) :
    named? (members.map fun member => (JsonText.ofString member.1, member.2)) = some members := by
  have h : named? (members.map fun member => (JsonText.ofString member.1, member.2)) =
      some (members.map id) := by
    refine mapM_map_eq_some _ id fun member _ => ?_
    rw [JsonText.toString?_ofString]
    rfl
  rwa [List.map_id] at h

/-- The fields of an object are read where all its members are fields. -/
theorem fields?_ofMembers (names : List String) {members : List (String × Json)}
    (hnames : members.map (·.1) = names) (hnodup : names.Nodup) :
    (ofMembers members).fields? names = some (members.map fun member => some member.2) := by
  subst hnames
  rw [ofMembers, fields?, named?_map_ofString]
  refine mapM_map_eq_some _ _ fun member hmember => ?_
  rw [member?, filter_key_eq hnodup hmember]

/-- An object can be held where its values can, one level deeper. -/
theorem isHoldable_ofMembers (depth : Nat) (members : List (String × Json)) :
    (ofMembers members).isHoldable (depth + 1) =
      members.all fun member => member.2.isHoldable depth := by
  rw [ofMembers, isHoldable]
  induction members with
  | nil => rfl
  | cons member members ih =>
    rw [List.map_cons, membersHoldable, ih, JsonText.toString?_ofString, Option.isSome_some,
      Bool.true_and, List.all_cons]

/-- A string can be held at any depth. -/
theorem isHoldable_ofString (depth : Nat) (s : String) : (ofString s).isHoldable depth = true := by
  rw [ofString, isHoldable, JsonText.toString?_ofString]
  rfl

/-! ## Numbers -/

/-- A natural number that fits into a word is read as such. -/
theorem number?_ofNat_of_lt {n : Nat} (h : n < wordBound) :
    (ofNat n).number? = some (.natural n) := by
  rw [ofNat, number?, Number.ofNumeral?, Numeral.integer?, Numeral.ofNat, valueOf_digitsOf]
  simp [h]

/-- A natural number is read back if it fits into a word. -/
theorem natBelow?_ofNat {bound : Nat} (hbound : bound ≤ wordBound) (n : Nat) :
    (ofNat n).natBelow? bound = if n < bound then some n else none := by
  by_cases h : n < wordBound
  · rw [natBelow?, number?_ofNat_of_lt h]
  · have hinteger : (Numeral.ofNat n).integer? = none := by
      rw [Numeral.integer?, Numeral.ofNat, valueOf_digitsOf]
      simp [h]
    rw [natBelow?, ofNat, number?, Number.ofNumeral?, hinteger, if_neg (by omega)]
    cases (Numeral.ofNat n).unsignedFloat? <;> rfl

/-- What is read where a double was written. -/
def reread? (x : Float) : Option Float := (encodeFloat x).float?

/-- A finite double is written as a number. -/
theorem encodeFloat_of_isFinite {x : Float} (h : x.isFinite = true) :
    encodeFloat x = .number (recordStyle.numeral x) := by
  rw [encodeFloat, NumeralStyle.numeral?, if_pos h]

/-- A double is written plainly, as a number or as null. -/
theorem plain_encodeFloat (x : Float) : (encodeFloat x).Plain := by
  rw [encodeFloat, NumeralStyle.numeral?]
  split
  · rename_i n h
    split at h
    · cases h
      exact recordStyle.wellFormed_numeral x
    · cases h
  · trivial

/-- Only of a finite double a number is written. -/
theorem isSome_number?_of_reread? {x y : Float} (h : reread? x = some y) :
    x.isFinite = true ∧ (Number.ofNumeral? (recordStyle.numeral x)).isSome = true := by
  by_cases hx : x.isFinite = true
  · refine ⟨hx, ?_⟩
    rw [reread?, encodeFloat_of_isFinite hx, float?, Option.map_eq_some_iff] at h
    obtain ⟨number, hnumber, -⟩ := h
    exact Option.isSome_of_eq_some hnumber
  · rw [reread?, encodeFloat, NumeralStyle.numeral?, if_neg hx] at h
    cases h

end Json

namespace ExprRecord

/-! ## Expressions -/

/-- How many levels a recorded expression has; a leaf has one. -/
def height : ExprRecord → Nat
  | .binary _ left right => max left.height right.height + 1
  | .unary _ operand => operand.height + 1
  | .var _ | .const _ => 1

/-- A record keeps the levels of its expression. -/
theorem height_toRecord (e : Expr) : e.toRecord.height = e.height := by
  induction e with
  | binary op left right ihl ihr => rw [Expr.toRecord, height, ihl, ihr, Expr.height]
  | unary op operand ih => rw [Expr.toRecord, height, ih, Expr.height]
  | var index => rfl
  | const value => rfl

/-- The recorded expression with its constants reread, if they can all be read and all
indices fit into a word. -/
def reread? : ExprRecord → Option ExprRecord
  | .binary op left right => do return .binary op (← left.reread?) (← right.reread?)
  | .unary op operand => do return .unary op (← operand.reread?)
  | .var index => if index < wordBound then some (.var index) else none
  | .const value => do return .const (← Json.reread? value)

/-- An expression is written plainly. -/
theorem plain_toJson (r : ExprRecord) : r.toJson.Plain := by
  induction r with
  | binary op left right ihl ihr =>
    refine Json.plain_ofMembers ?_
    simp only [List.forall_mem_cons]
    exact ⟨Json.plain_ofString _, Json.plain_ofString _, ihl, ihr, nofun⟩
  | unary op operand ih =>
    refine Json.plain_ofMembers ?_
    simp only [List.forall_mem_cons]
    exact ⟨Json.plain_ofString _, Json.plain_ofString _, ih, nofun⟩
  | var index =>
    refine Json.plain_ofMembers ?_
    simp only [List.forall_mem_cons]
    exact ⟨Json.plain_ofString _, Json.plain_ofNat _, nofun⟩
  | const value =>
    refine Json.plain_ofMembers ?_
    simp only [List.forall_mem_cons]
    exact ⟨Json.plain_ofString _, Json.plain_encodeFloat _, nofun⟩

/-- A value with the expression that it describes. -/
def part (json : Json) : Part := ⟨json, ofValue? json⟩

/-- The parts of the members are read one by one. -/
theorem memberParts_map_ofString (members : List (String × Json)) :
    memberParts (members.map fun member => (JsonText.ofString member.1, member.2)) =
      members.map fun member => (JsonText.ofString member.1, part member.2) := by
  induction members with
  | nil => rfl
  | cons member members ih => rw [List.map_cons, memberParts, ih, List.map_cons, part]

/-- Where all keys differ, a key picks out the part that it names. -/
theorem onlyPart?_of_mem {members : List (String × Json)} (hnodup : (members.map (·.1)).Nodup)
    {name : String} {json : Json} (h : (name, json) ∈ members) :
    onlyPart? (memberParts (members.map fun member => (JsonText.ofString member.1, member.2)))
      name = some (part json) := by
  have hfilter : ((members.map fun member => (JsonText.ofString member.1, part member.2)).filter
      fun part => part.1.toString? == some name) = [(JsonText.ofString name, part json)] := by
    have hkey : (fun part : JsonText × Part => part.1.toString? == some name) ∘
        (fun member : String × Json => (JsonText.ofString member.1, part member.2)) =
          fun member => member.1 == name := by
      funext member
      simp [JsonText.toString?_ofString]
    rw [List.filter_map, hkey, filter_key_eq hnodup h]
    rfl
  rw [memberParts_map_ofString, onlyPart?, hfilter]

/-- A kind is told by its name. -/
theorem Kind.ofJson?_ofString (name : String) :
    Kind.ofJson? (.ofString name) = Kind.ofName? name := by
  rw [Json.ofString, ofJson?, JsonText.toString?_ofString]
  rfl

/-- An object with a type and the fields of that type describes what the fields do. -/
theorem ofValue?_ofMembers (kind : Kind) {name : String} {members : List (String × Json)}
    (hname : Kind.ofName? name = some kind) (hmembers : members.map (·.1) = kind.fieldNames) :
    ofValue? (.ofMembers (("type", .ofString name) :: members)) =
      ofFields? kind (members.map fun member => part member.2) := by
  have hnodup : ((("type", Json.ofString name) :: members).map (·.1)).Nodup := by
    rw [List.map_cons, hmembers]
    show ("type" :: kind.fieldNames).Nodup
    cases kind <;> decide
  have htype := onlyPart?_of_mem hnodup List.mem_cons_self
  have hfields := mapM_map_eq_some (·.1) (fun member => part member.2)
    fun member (hmember : member ∈ members) =>
      onlyPart?_of_mem hnodup (List.mem_cons_of_mem _ hmember)
  rw [hmembers] at hfields
  have hkind : Kind.ofJson? (part (.ofString name)).json = some kind := by
    rw [part, Kind.ofJson?_ofString, hname]
  rw [Json.ofMembers, ofValue?, ofMembers?, htype, Option.bind_eq_bind, Option.bind_some, hkind,
    Option.bind_eq_bind, Option.bind_some, hfields]
  rfl

/-- **What a written expression describes**, whatever its height. -/
theorem ofValue?_toJson (r : ExprRecord) : ofValue? r.toJson = r.reread? := by
  induction r with
  | binary op left right ihl ihr =>
    rw [toJson, ofValue?_ofMembers .binary (by decide) rfl]
    simp only [List.map_cons, List.map_nil, part, ofFields?, ihl, ihr, Json.asString?,
      Json.ofString, JsonText.toString?_ofString]
    rfl
  | unary op operand ih =>
    rw [toJson, ofValue?_ofMembers .unary (by decide) rfl]
    simp only [List.map_cons, List.map_nil, part, ofFields?, ih, Json.asString?,
      Json.ofString, JsonText.toString?_ofString]
    rfl
  | var index =>
    rw [toJson, ofValue?_ofMembers .var (by decide) rfl]
    simp only [List.map_cons, List.map_nil, part, ofFields?, Json.natBelow?_ofNat (Nat.le_refl _),
      reread?]
    split <;> rfl
  | const value =>
    rw [toJson, ofValue?_ofMembers .const (by decide) rfl]
    rfl

/-- Where all numbers can be read, a written expression can be held up to its height. -/
theorem isHoldable_toJson {r r' : ExprRecord} (h : r.reread? = some r') (depth : Nat) :
    r.toJson.isHoldable depth = decide (r.height ≤ depth) := by
  induction r generalizing r' depth with
  | binary op left right ihl ihr =>
    simp only [reread?, Option.bind_eq_bind, Option.bind_eq_some_iff] at h
    obtain ⟨left', hleft, right', hright, -⟩ := h
    cases depth with
    | zero => rfl
    | succ depth =>
      rw [toJson, Json.isHoldable_ofMembers, height]
      simp only [Nat.add_le_add_iff_right, Nat.max_le, Bool.decide_and]
      simp [Json.isHoldable_ofString, ihl hleft, ihr hright]
  | unary op operand ih =>
    simp only [reread?, Option.bind_eq_bind, Option.bind_eq_some_iff] at h
    obtain ⟨operand', hoperand, -⟩ := h
    cases depth with
    | zero => rfl
    | succ depth =>
      rw [toJson, Json.isHoldable_ofMembers, height]
      simp [Json.isHoldable_ofString, ih hoperand]
  | var index =>
    have hindex : index < wordBound := by
      rw [reread?] at h
      split at h
      · assumption
      · cases h
    have hnumber := Json.number?_ofNat_of_lt hindex
    cases depth with
    | zero => rfl
    | succ depth =>
      rw [toJson, Json.isHoldable_ofMembers, height]
      rw [Json.ofNat, Json.number?] at hnumber
      simp [Json.isHoldable_ofString, Json.ofNat, Json.isHoldable, hnumber]
  | const value =>
    simp only [reread?, Option.bind_eq_bind, Option.bind_eq_some_iff] at h
    obtain ⟨value', hvalue, -⟩ := h
    obtain ⟨hfinite, hnumber⟩ := Json.isSome_number?_of_reread? hvalue
    cases depth with
    | zero => rfl
    | succ depth =>
      rw [toJson, Json.isHoldable_ofMembers, height]
      simp [Json.isHoldable_ofString, Json.encodeFloat_of_isFinite hfinite, Json.isHoldable, hnumber]

/-- An expression is written with its type. -/
theorem typeIsNamed_toJson (r : ExprRecord) : typeIsNamed r.toJson = true := by
  have h (name : String) (members : List (String × Json)) :
      typeIsNamed (.ofMembers (("type", .ofString name) :: members)) = true := by
    rw [Json.ofMembers, typeIsNamed, List.map_cons, List.any_cons, Json.ofString, Json.asString?,
      JsonText.toString?_ofString, JsonText.toString?_ofString]
    rfl
  cases r <;> exact h _ _

/-- **What is read where an expression was written**: the expression with its constants
reread, unless it is too high. -/
theorem ofJson?_toJson (r : ExprRecord) :
    ofJson? r.toJson = if r.height ≤ depthLimit then r.reread? else none := by
  rw [ofJson?, typeIsNamed_toJson, ofValue?_toJson, Bool.and_true]
  cases h : r.reread? with
  | none => simp
  | some r' => simp [isHoldable_toJson h]

end ExprRecord

/-! ## Settings -/

namespace Settings

/-- The settings with their probabilities reread, if these can be read and the limits
fit into a word. -/
def reread? (s : Settings) : Option Settings :=
  if s.maxDepth < wordBound ∧ s.attempts < wordBound then do
    return {
      maxDepth := s.maxDepth
      attempts := s.attempts
      branchProbability := ← Json.reread? s.branchProbability
      binaryProbability := ← Json.reread? s.binaryProbability
      variableProbability := ← Json.reread? s.variableProbability
      subtreeMutationRate := ← Json.reread? s.subtreeMutationRate }
  else none

/-- Settings are written plainly. -/
theorem plain_toJson (s : Settings) : s.toJson.Plain := by
  refine Json.plain_ofMembers ?_
  simp only [List.forall_mem_cons]
  exact ⟨Json.plain_ofNat _, Json.plain_ofNat _, Json.plain_encodeFloat _,
    Json.plain_encodeFloat _, Json.plain_encodeFloat _, Json.plain_encodeFloat _, nofun⟩

/-- **What is read where settings were written.** -/
theorem ofJson?_toJson (s : Settings) : ofJson? s.toJson = s.reread? := by
  rw [ofJson?, toJson, Json.fields?_ofMembers fieldNames rfl (by decide)]
  simp only [List.map_cons, List.map_nil, Option.bind_eq_bind, Option.bind_some, Json.readOr,
    Json.natBelow?_ofNat (Nat.le_refl _), reread?]
  by_cases hdepth : s.maxDepth < wordBound
  · by_cases hattempts : s.attempts < wordBound
    · rw [if_pos hdepth, if_pos hattempts, if_pos ⟨hdepth, hattempts⟩]
      rfl
    · have hlimits : ¬ (s.maxDepth < wordBound ∧ s.attempts < wordBound) := fun h => hattempts h.2
      rw [if_pos hdepth, if_neg hattempts, if_neg hlimits]
      rfl
  · have hlimits : ¬ (s.maxDepth < wordBound ∧ s.attempts < wordBound) := fun h => hdepth h.1
    rw [if_neg hdepth, if_neg hlimits]
    rfl

end Settings

/-! ## Records -/

namespace Record

/-- A value that may be missing, as it is written. -/
def nullable {α : Type} (write : α → Json) : Option α → Json
  | some x => write x
  | none => .null

/-- A value that may be missing is written plainly if the value is. -/
theorem plain_nullable {α : Type} {write : α → Json} (h : ∀ x, (write x).Plain)
    (value : Option α) : (nullable write value).Plain := by
  cases value with
  | none => trivial
  | some x => exact h x

/-- What is not null is read as a value. -/
theorem readNullable_of_ne_null {α : Type} {read : Json → Option α} {json : Json}
    (h : json ≠ .null) : readNullable read json = (read json).map some := by
  cases json <;> first | rfl | exact absurd rfl h

/-- A record is written with its four members, whether there is an expression and a fitness
or not. -/
theorem toJson_eq (r : Record) :
    r.toJson = .ofMembers
      [ ("version", .ofNat r.version), ("config", r.settings.toJson),
        ("root", nullable ExprRecord.toJson r.root),
        ("fitness", nullable Json.encodeFloat r.fitness) ] := by
  rw [toJson]
  cases r.root <;> cases r.fitness <;> rfl

/-- The expression as reread, if there is one; it must not be too high. -/
def rereadRoot? : Option ExprRecord → Option (Option ExprRecord)
  | none => some none
  | some root => if root.height ≤ ExprRecord.depthLimit then root.reread?.map some else none

/-- The fitness as reread, if there is one; one that is not finite is not written. -/
def rereadFitness? : Option Float → Option (Option Float)
  | none => some none
  | some fitness => if fitness.isFinite then (Json.reread? fitness).map some else some none

/-- The record as reread, if it can be read. -/
def reread? (r : Record) : Option Record :=
  if r.version < halfWordBound then do
    return {
      version := r.version
      settings := ← r.settings.reread?
      root := ← rereadRoot? r.root
      fitness := ← rereadFitness? r.fitness }
  else none

/-- A record is written plainly. -/
theorem plain_toJson (r : Record) : r.toJson.Plain := by
  rw [toJson_eq]
  refine Json.plain_ofMembers ?_
  simp only [List.forall_mem_cons]
  exact ⟨Json.plain_ofNat _, r.settings.plain_toJson,
    plain_nullable ExprRecord.plain_toJson r.root, plain_nullable Json.plain_encodeFloat r.fitness,
    nofun⟩

/-- What is read where the expression of a record was written, if there was one. -/
theorem readNullable_root (root : Option ExprRecord) :
    readNullable ExprRecord.ofJson? (nullable ExprRecord.toJson root) = rereadRoot? root := by
  cases root with
  | none => rfl
  | some root =>
    have hobject : root.toJson ≠ .null := by
      cases root <;> exact nofun
    rw [nullable, readNullable_of_ne_null hobject, ExprRecord.ofJson?_toJson, rereadRoot?]
    split <;> rfl

/-- What is read where the fitness of a record was written, if there was one. -/
theorem readNullable_fitness (fitness : Option Float) :
    readNullable Json.float? (nullable Json.encodeFloat fitness) = rereadFitness? fitness := by
  cases fitness with
  | none => rfl
  | some fitness =>
    by_cases hfinite : fitness.isFinite = true
    · have hnumber : Json.encodeFloat fitness ≠ .null := by
        rw [Json.encodeFloat_of_isFinite hfinite]
        exact nofun
      rw [nullable, readNullable_of_ne_null hnumber, rereadFitness?, if_pos hfinite, Json.reread?]
    · rw [nullable, rereadFitness?, if_neg hfinite, Json.encodeFloat, NumeralStyle.numeral?,
        if_neg hfinite]
      rfl

/-- **What is read where a record was written.** -/
theorem ofJson?_toJson (r : Record) : ofJson? r.toJson = r.reread? := by
  have hcomplete : isComplete r.toJson = true := rfl
  rw [ofJson?, hcomplete, toJson_eq, Json.fields?_ofMembers fieldNames rfl (by decide)]
  simp only [List.map_cons, List.map_nil, guard, if_true, Option.pure_def, Option.bind_eq_bind,
    Option.bind_some, Json.readOr, Json.natBelow?_ofNat (show halfWordBound ≤ wordBound by decide),
    Settings.ofJson?_toJson, readNullable_root, readNullable_fitness, reread?]
  by_cases hversion : r.version < halfWordBound
  · rw [if_pos hversion, if_pos hversion, Option.bind_some]
  · rw [if_neg hversion, if_neg hversion, Option.bind_none]

end Record

/-! ## Files -/

namespace Individual

/-- **What is read from the text of an individual.** -/
theorem ofText?_save (i : Individual) :
    (Json.ofText? i.save).bind Record.ofJson? = i.toRecord.reread? := by
  rw [save, Json.ofText?_pretty i.toRecord.plain_toJson, Option.bind_some, Record.ofJson?_toJson]

/-- **Loading what was saved is restoring the record as reread.** -/
theorem load_save (primitives : PrimitiveSet) (dataset : Dataset) (i : Individual) :
    load primitives dataset (some i.save) =
      match i.toRecord.reread? with
      | none => .error .malformed
      | some record => ofRecord primitives dataset record := by
  cases hrecord : i.toRecord.reread? with
  | none => simp only [load, ofText?_save, hrecord]
  | some record => simp only [load, ofText?_save, hrecord]

end Individual

end SymbolicRegression
