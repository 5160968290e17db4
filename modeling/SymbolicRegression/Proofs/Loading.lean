/-
# What can be loaded

A file may hold any text at all: one that was saved, one that was edited by hand, or
no record of anything.  Whatever passes the reader, the operators, the settings and the
limits in turn is as sound as an individual of the search, and it has a fitness of its own:
what the text says about the fitness is read and then forgotten.

* `Individual.isOver_ofRecord` : what is restored is over the given operators;
* `Record.AgreeButFitness`, `SameButFitness` : values and texts that differ in what they say
  about the fitness;
* `Record.eq_with_fitness_of_agree` : they describe records that differ in nothing else;
* `Individual.load_eq_of_sameButFitness` : and they are loaded alike.

Main statement:

* `Individual.load_sound` : **loading lets through only what is sound**, whatever the text.
-/
import SymbolicRegression.Proofs.Reloading

namespace SymbolicRegression

/-! ## What has been checked -/

namespace Individual

variable {primitives : PrimitiveSet} {dataset : Dataset} {record : Record} {restored : Restored}

/-- The expression that a record leads to, if there is one, is over the operators. -/
theorem isOver_of_recordedRoot {ops : OperatorSet} {root? : Option ExprRecord}
    {root : Option Expr} (h : recordedRoot ops root? = .ok root) {e : Expr}
    (he : root = some e) : e.IsOver ops := by
  subst he
  unfold recordedRoot at h
  split at h
  · cases h
  · split at h
    · cases h
    · rename_i hresolve
      cases h
      exact (ExprRecord.isOver_of_resolve hresolve).1

/-- A restored individual has the given primitives, its expression is over their
operators, and it works on the given dataset. -/
theorem isOver_ofRecord (h : ofRecord primitives dataset record = .ok restored) :
    restored.individual.IsOver primitives ∧ restored.individual.dataset = dataset := by
  obtain ⟨-, root, hroot, -, hrestored⟩ := passed_of_ofRecord h
  rw [hrestored]
  refine ⟨⟨primitives_rescore _, fun e he => ?_⟩, dataset_rescore _⟩
  rw [root_rescore] at he
  exact isOver_of_recordedRoot hroot he

/-- What is loaded is restored from a record that the text describes. -/
theorem load_eq_ok_iff {text : String} :
    load primitives dataset (some text) = .ok restored ↔
      ∃ record, (Json.ofText? text).bind Record.ofJson? = some record ∧
        ofRecord primitives dataset record = .ok restored := by
  unfold load
  cases hread : (Json.ofText? text).bind Record.ofJson? with
  | none => simp [hread]
  | some record => simp [hread]

end Individual

/-! ## Forgetting the fitness -/

namespace Json

/-- The members of an object that do not have a given name. -/
def membersBut (name : String) (members : List (JsonText × Json)) : List (JsonText × Json) :=
  members.filter fun member => member.1.toString? != some name

/-- Where all keys are strings of characters, leaving out a name leaves out the members
of that name. -/
theorem named?_membersBut (name : String) {members : List (JsonText × Json)}
    {named : List (String × Json)} (h : named? members = some named) :
    named? (membersBut name members) = some (named.filter fun member => member.1 != name) := by
  induction members generalizing named with
  | nil =>
    cases h
    rfl
  | cons member members ih =>
    unfold named? at h
    rw [List.mapM_cons] at h
    simp only [Option.bind_eq_bind, Option.bind_eq_some_iff, Option.map_eq_some_iff,
      Option.pure_def, Option.some.injEq] at h
    obtain ⟨first, ⟨key, hkey, rfl⟩, rest, hrest, rfl⟩ := h
    have ih := ih hrest
    unfold membersBut at ih ⊢
    by_cases hname : key = name
    · rw [List.filter_cons_of_neg (by simp [hkey, hname]), ih,
        List.filter_cons_of_neg (by simp [hname])]
    · rw [List.filter_cons_of_pos (by simp [hkey, hname]),
        List.filter_cons_of_pos (by simp [hname])]
      unfold named? at ih ⊢
      rw [List.mapM_cons, hkey, ih]
      rfl

/-- A field is not touched by members of another name. -/
theorem member?_filter_ne {name field : String} (hne : field ≠ name)
    (named : List (String × Json)) :
    member? (named.filter fun member => member.1 != name) field = member? named field := by
  have hfilter : (named.filter fun member => member.1 != name).filter
      (fun member => member.1 == field) = named.filter fun member => member.1 == field := by
    rw [List.filter_filter]
    apply List.filter_congr
    intro member _
    by_cases hfield : member.1 = field
    · simp [hfield, hne]
    · simp [hfield]
  unfold member?
  rw [hfilter]

/-- Objects that agree but for the members of one name have the same other fields. -/
theorem member?_eq_of_membersBut_eq {name : String} {members members' : List (JsonText × Json)}
    {named named' : List (String × Json)} (h : membersBut name members = membersBut name members')
    (hnamed : named? members = some named) (hnamed' : named? members' = some named')
    {field : String} (hne : field ≠ name) : member? named field = member? named' field := by
  have hothers := named?_membersBut name hnamed
  rw [h, named?_membersBut name hnamed', Option.some.injEq] at hothers
  rw [← member?_filter_ne hne named, ← hothers, member?_filter_ne hne]

end Json

namespace Record

variable {json json' : Json} {r r' : Record}

/-- Two values that differ at most in what they say about the fitness: objects whose other
members are the same, or arrays whose items before the last are. -/
inductive AgreeButFitness : Json → Json → Prop
  | object {members members' : List (JsonText × Json)}
      (h : Json.membersBut "fitness" members = Json.membersBut "fitness" members') :
      AgreeButFitness (.object members) (.object members')
  | array {items items' : List Json} (h : items.dropLast = items'.dropLast) :
      AgreeButFitness (.array items) (.array items')

/-- What the reader looks up in a value that it takes for a record. -/
theorem exists_fields_of_ofJson? (h : ofJson? json = some r) :
    isComplete json = true ∧ ∃ version settings root fitness,
      json.fields? fieldNames = some [some version, some settings, root, fitness] ∧
      version.natBelow? halfWordBound = some r.version ∧
      Settings.ofJson? settings = some r.settings ∧
      Json.readOr none (readNullable ExprRecord.ofJson?) root = some r.root := by
  unfold ofJson? at h
  simp only [Option.bind_eq_bind, Option.bind_eq_some_iff] at h
  obtain ⟨_, hguard, fields, hfields, h⟩ := h
  have hcomplete : isComplete json = true := by
    unfold guard at hguard
    split at hguard
    · assumption
    · cases hguard
  refine ⟨hcomplete, ?_⟩
  split at h
  · rename_i version settings root fitness
    simp only [Option.bind_eq_some_iff, Option.pure_def, Option.some.injEq] at h
    obtain ⟨version', hversion, settings', hsettings, root', hroot, fitness', -, rfl⟩ := h
    exact ⟨version, settings, root, fitness, hfields, hversion, hsettings, hroot⟩
  · cases h

/-- The fields of an array that has all of them are its items, in their order. -/
theorem take_fields_of_array {items : List Json} (hcomplete : isComplete (.array items) = true)
    {fields : List (Option Json)} (h : (Json.array items).fields? fieldNames = some fields) :
    fields.take 3 = items.dropLast.map some := by
  have hlength : items.length = 4 := of_decide_eq_true hcomplete
  simp only [Json.fields?] at h
  rw [if_pos (by rw [hlength]; decide), hlength] at h
  cases h
  rw [List.dropLast_eq_take, hlength, List.map_take]
  simp [fieldNames]

/-- Values that agree but for the fitness have the same other fields. -/
theorem take_fields_of_agree (h : AgreeButFitness json json')
    (hcomplete : isComplete json = true) (hcomplete' : isComplete json' = true)
    {fields fields' : List (Option Json)} (hfields : json.fields? fieldNames = some fields)
    (hfields' : json'.fields? fieldNames = some fields') : fields.take 3 = fields'.take 3 := by
  cases h with
  | object h =>
    unfold Json.fields? at hfields hfields'
    simp only [Option.bind_eq_bind, Option.bind_eq_some_iff] at hfields hfields'
    obtain ⟨named, hnamed, hfields⟩ := hfields
    obtain ⟨named', hnamed', hfields'⟩ := hfields'
    have hfield {field : String} (hne : field ≠ "fitness") :
        Json.member? named field = Json.member? named' field :=
      Json.member?_eq_of_membersBut_eq h hnamed hnamed' hne
    unfold fieldNames at hfields hfields'
    simp only [List.mapM_cons, List.mapM_nil, Option.bind_eq_bind, Option.pure_def,
      Option.bind_eq_some_iff, Option.some.injEq] at hfields hfields'
    rw [hfield (by decide : "version" ≠ "fitness"), hfield (by decide : "config" ≠ "fitness"),
      hfield (by decide : "root" ≠ "fitness")] at hfields
    -- both lists are looked up now in the same object, but for their last item
    grind
  | array h =>
    rw [take_fields_of_array hcomplete hfields, take_fields_of_array hcomplete' hfields', h]

/-- **The fitness is all that differs.**  Records that are described by values that agree
but for the fitness agree but for the fitness. -/
theorem eq_with_fitness_of_agree (h : AgreeButFitness json json') (hr : ofJson? json = some r)
    (hr' : ofJson? json' = some r') : r' = { r with fitness := r'.fitness } := by
  obtain ⟨hcomplete, version, settings, root, fitness, hfields, hversion, hsettings, hroot⟩ :=
    exists_fields_of_ofJson? hr
  obtain ⟨hcomplete', version', settings', root', fitness', hfields', hversion', hsettings',
    hroot'⟩ := exists_fields_of_ofJson? hr'
  have hsame := take_fields_of_agree h hcomplete hcomplete' hfields hfields'
  simp only [List.take_succ_cons, List.take_zero, List.cons.injEq, Option.some.injEq,
    and_true] at hsame
  obtain ⟨rfl, rfl, rfl⟩ := hsame
  rw [hversion, Option.some.injEq] at hversion'
  rw [hsettings, Option.some.injEq] at hsettings'
  rw [hroot, Option.some.injEq] at hroot'
  rw [hversion', hsettings', hroot']

/-- What a record tells about the fitness does not show in the value but there. -/
theorem agreeButFitness_toJson (r : Record) (fitness : Option Float) :
    AgreeButFitness r.toJson ({ r with fitness } : Record).toJson := by
  rw [toJson_eq, toJson_eq]
  apply AgreeButFitness.object
  simp [Json.membersBut, JsonText.toString?_ofString]

end Record

/-- Two texts of records that differ at most in what they say about the fitness. -/
def SameButFitness (text text' : String) : Prop :=
  ∃ json json', Json.ofText? text = some json ∧ Json.ofText? text' = some json' ∧
    (Record.ofJson? json).isSome = true ∧ (Record.ofJson? json').isSome = true ∧
    Record.AgreeButFitness json json'

namespace Individual

/-- What a text says about the fitness has no influence on what is loaded, nor on why
nothing is. -/
theorem load_eq_of_sameButFitness {primitives : PrimitiveSet} {dataset : Dataset}
    {text text' : String} (h : SameButFitness text text') :
    load primitives dataset (some text') = load primitives dataset (some text) := by
  obtain ⟨json, json', hjson, hjson', hr, hr', hagree⟩ := h
  obtain ⟨r, hr⟩ := Option.isSome_iff_exists.1 hr
  obtain ⟨r', hr'⟩ := Option.isSome_iff_exists.1 hr'
  unfold load
  simp only [hjson, hjson', Option.bind_some, hr, hr']
  rw [Record.eq_with_fitness_of_agree hagree hr hr']
  rfl

/-! ## A sample -/

/-- The file of an individual, with another fitness in the place of its own. -/
def saveClaiming (i : Individual) (fitness : Option Float) : String :=
  ({ i.toRecord with fitness } : Record).toJson.pretty

/-- A file that claims another fitness that can be read is the same but for the fitness. -/
theorem sameButFitness_saveClaiming {i : Individual} {fitness : Option Float}
    (hread : i.toRecord.reread?.isSome = true)
    (hfitness : (Record.rereadFitness? fitness).isSome = true) :
    SameButFitness i.save (i.saveClaiming fitness) := by
  refine ⟨_, _, Json.ofText?_pretty (Record.plain_toJson _), Json.ofText?_pretty
    (Record.plain_toJson _), ?_, ?_, Record.agreeButFitness_toJson _ _⟩
  · rwa [Record.ofJson?_toJson]
  · rw [Record.ofJson?_toJson]
    obtain ⟨read, hread⟩ := Option.isSome_iff_exists.1 hread
    obtain ⟨claimed, hclaimed⟩ := Option.isSome_iff_exists.1 hfitness
    unfold Record.reread? at hread ⊢
    split at hread
    · rename_i hversion
      simp only [Option.bind_eq_bind, Option.bind_eq_some_iff] at hread
      obtain ⟨settings, hsettings, root, hroot, -⟩ := hread
      simp only [if_pos hversion, hsettings, hroot, hclaimed]
      rfl
    · cases hread

/-! ## Main statement -/

/-- **Loading lets through only what is sound.**  Whatever text a file holds, an individual
that is loaded from it has valid settings, and its expression, if it has one, is within
the depth limit and has only variables of the dataset, finite constants and operators
of the set, each with as many operands as it takes.  Its fitness is that of the expression
on the dataset; another text that is readable and differs in nothing but the fitness
that it tells, or in telling none, loads as the same. -/
theorem load_sound (primitives : PrimitiveSet) (dataset : Dataset) (text : String) :
    (∀ restored, load primitives dataset (some text) = .ok restored →
      let i := restored.individual
      i.settings.Valid ∧ i.primitives = primitives ∧ i.dataset = dataset ∧
      (∀ root, i.root = some root → root.depth ≤ i.settings.maxDepth ∧
        (∀ index, Symbol.var index ∈ root.symbols → index < dataset.variableCount) ∧
        (∀ value, Symbol.const value ∈ root.symbols → value.isFinite = true) ∧
        (∀ op, Symbol.binary op ∈ root.symbols → op ∈ primitives.operators.binary) ∧
        ∀ op, Symbol.unary op ∈ root.symbols → op ∈ primitives.operators.unary) ∧
      i.Scored) ∧
    ∀ text', SameButFitness text text' →
      load primitives dataset (some text') = load primitives dataset (some text) := by
  refine ⟨?_, fun text' h => load_eq_of_sameButFitness h⟩
  intro restored hload i
  obtain ⟨record, -, hrestore⟩ := load_eq_ok_iff.1 hload
  have hsound : i.Sound := sound_ofRecord hrestore
  obtain ⟨hover, hdataset⟩ := isOver_ofRecord hrestore
  refine ⟨hsound.valid, hover.primitives_eq, hdataset, ?_, hsound.scored⟩
  intro root hroot
  have hadmits := hsound.admits root hroot
  have hcovers := hover.root_isOver root hroot
  refine ⟨hadmits.depth_le, ?_, ?_, ?_, ?_⟩
  · intro index hs
    rw [← hdataset]
    exact hadmits.var_lt index hs
  · intro value hs
    exact hcovers _ hs
  · intro op hs
    exact hcovers _ hs
  · intro op hs
    exact hcovers _ hs

/-- The file of the parabola, claiming a fitness that is not its own, loads as the parabola. -/
theorem load_sound_parabola :
    parabola.fitness ≠ 99.0 ∧ ∃ restored,
      load unguarded twoSquares (some (parabola.saveClaiming (some 99.0))) = .ok restored ∧
        restored.individual = parabola ∧ restored.individual.Scored := by
  have hread : parabola.toRecord.reread?.isSome = true := by
    rw [legible_parabola.reread?_toRecord valid_default isOver_parabola]
    rfl
  have hclaim : (Record.rereadFitness? (some 99.0)).isSome = true := by
    rw [Record.rereadFitness?, if_pos (by decide), Json.reread?_eq_some (by decide)]
    rfl
  obtain ⟨restored, hload, hrestored⟩ :=
    load_save_of_legible reachable_parabola.sound isOver_parabola legible_parabola
  have hclaimed : load unguarded twoSquares (some (parabola.saveClaiming (some 99.0))) =
      .ok restored :=
    ((load_sound unguarded twoSquares parabola.save).2 _
      (sameButFitness_saveClaiming hread hclaim)).trans hload
  have hkept : restored.individual = parabola :=
    hrestored.trans ((reread_eq_iff reachable_parabola.sound isOver_parabola).2 kept_parabola)
  refine ⟨by decide +kernel, restored, hclaimed, hkept, ?_⟩
  exact ((load_sound unguarded twoSquares _).1 restored hclaimed).2.2.2.2

end Individual

end SymbolicRegression
