/-
# The verdict on a record

A record is restored or refused.  It is refused for its version, for a node of its
expression, for its settings, for its depth or for a variable, and where there are several
faults they count in this order, and among the nodes in the order in which they are written.

* `ExprRecord.nodes`, `ExprRecord.fault?` : the nodes of a recorded expression in their
  order, and what can be wrong with a single one;
* `ExprRecord.findSome?_nodes` : **an expression is refused for its first faulty node**;
* `Record.Verdict` : what a record is to be refused for, if it is;
* `Record.exists_verdict` : there is a verdict on every record;
* `Individual.refusal?_ofRecord` : **the verdict is what happens**;
* `Individual.ofRecord_eq_expression_iff` and the like : when a record is refused for what;
* `Individual.toRecord_ofRecord` : what is restored is recorded as it was, but for the fitness.

Main statement:

* `Individual.ofRecord_refuses_first_fault` : **what each record is refused for**, and what a
  record that is not refused is restored as.
-/
import SymbolicRegression.Proofs.Rereading
import SymbolicRegression.Proofs.Restoration

namespace SymbolicRegression

namespace OperatorSet

variable {ops : OperatorSet} {name : String}

theorem findUnary?_eq_none_iff : ops.findUnary? name = none ↔ name ∉ ops.unary.map (·.name) := by
  simp [findUnary?]

theorem findBinary?_eq_none_iff :
    ops.findBinary? name = none ↔ name ∉ ops.binary.map (·.name) := by
  simp [findBinary?]

end OperatorSet

/-! ## Nodes -/

namespace ExprRecord

/-- The nodes of a recorded expression, an operator before those of its operands; each
stands for itself with all that is below it. -/
def nodes : ExprRecord → List ExprRecord
  | .binary op left right => .binary op left right :: (left.nodes ++ right.nodes)
  | .unary op operand => .unary op operand :: operand.nodes
  | .var index => [.var index]
  | .const value => [.const value]

/-- What is wrong with a node by itself: no operator of its name and its number of operands
is in the set, or its constant is not finite. -/
def fault? (ops : OperatorSet) : ExprRecord → Option ResolveError
  | .binary op _ _ =>
      if op ∈ ops.binary.map (·.name) then none else some (.unknownOperator op 2)
  | .unary op _ => if op ∈ ops.unary.map (·.name) then none else some (.unknownOperator op 1)
  | .var _ => none
  | .const value => if value.isFinite then none else some (.notFinite value)

/-- The depth of the deepest leaf, where the root has depth zero. -/
def depth (record : ExprRecord) : Nat := record.height - 1

/-- **A recorded expression is refused for its first faulty node**, and for nothing else. -/
theorem findSome?_nodes (ops : OperatorSet) (record : ExprRecord) :
    record.nodes.findSome? (fault? ops) =
      match record.resolve ops with
      | .error cause => some cause
      | .ok _ => none := by
  induction record with
  | binary name left right ihl ihr =>
    rw [nodes, List.findSome?_cons, List.findSome?_append, ihl, ihr, fault?, resolve]
    cases hfind : ops.findBinary? name with
    | none => rw [if_neg (OperatorSet.findBinary?_eq_none_iff.1 hfind)]
    | some op =>
      obtain ⟨hop, rfl⟩ := OperatorSet.findBinary?_eq_some_iff.1 hfind
      rw [if_pos (List.mem_map_of_mem hop)]
      -- the left operand is looked at first
      cases left.resolve ops with
      | error cause => rfl
      | ok left =>
        cases right.resolve ops with
        | error cause => rfl
        | ok right => rfl
  | unary name operand ih =>
    rw [nodes, List.findSome?_cons, ih, fault?, resolve]
    cases hfind : ops.findUnary? name with
    | none => rw [if_neg (OperatorSet.findUnary?_eq_none_iff.1 hfind)]
    | some op =>
      obtain ⟨hop, rfl⟩ := OperatorSet.findUnary?_eq_some_iff.1 hfind
      rw [if_pos (List.mem_map_of_mem hop)]
      cases operand.resolve ops with
      | error cause => rfl
      | ok operand => rfl
  | var index => rfl
  | const value =>
    rw [nodes, List.findSome?_cons, fault?, resolve]
    by_cases hfinite : value.isFinite = true
    · rw [if_pos hfinite, if_pos hfinite]
      rfl
    · rw [if_neg hfinite, if_neg hfinite]

/-- The variables of a record are those of its expression. -/
theorem var_mem_nodes_toRecord {e : Expr} {index : Nat} :
    ExprRecord.var index ∈ e.toRecord.nodes ↔ Symbol.var index ∈ e.symbols := by
  induction e with
  | binary op left right ihl ihr =>
    rw [Expr.var_mem_symbols_binary, Expr.toRecord, nodes, List.mem_cons, List.mem_append, ihl, ihr]
    simp
  | unary op operand ih =>
    rw [Expr.var_mem_symbols_unary, Expr.toRecord, nodes, List.mem_cons, ih]
    simp
  | var i => simp [Expr.toRecord, nodes, Expr.symbols]
  | const value => simp [Expr.toRecord, nodes, Expr.symbols]

end ExprRecord

/-! ## Verdicts -/

namespace Record

variable {primitives : PrimitiveSet} {dataset : Dataset} {r : Record} {ops : OperatorSet}

/-- The nodes of the recorded expression, if there is one. -/
def nodes (r : Record) : List ExprRecord :=
  match r.root with
  | some root => root.nodes
  | none => []

/-- The depth of the recorded expression, if there is one. -/
def depth? (r : Record) : Option Nat := r.root.map ExprRecord.depth

/-- Whether nothing is wrong with the nodes by themselves. -/
def Resolves (r : Record) (ops : OperatorSet) : Prop := ∀ node ∈ r.nodes, node.fault? ops = none

/-- Whether the recorded expression is no deeper than the recorded settings allow. -/
def IsShallow (r : Record) : Prop := ∀ depth, r.depth? = some depth → depth ≤ r.settings.maxDepth

/-- Whether an index is the greatest one of a recorded variable. -/
def IsTopVar (r : Record) (top : Nat) : Prop :=
  .var top ∈ r.nodes ∧ ∀ index, .var index ∈ r.nodes → index ≤ top

/-- What a record is to be refused for, if it is: the first of its faults. -/
inductive Verdict (primitives : PrimitiveSet) (dataset : Dataset) (r : Record) :
    Option LoadError → Prop
  | unsupportedVersion (h : r.version ≠ currentVersion) :
      Verdict primitives dataset r (some (.unsupportedVersion r.version))
  | expression {cause : ResolveError} (hversion : r.version = currentVersion)
      (h : r.nodes.findSome? (ExprRecord.fault? primitives.operators) = some cause) :
      Verdict primitives dataset r (some (.expression cause))
  | settings {cause : SettingsError} (hversion : r.version = currentVersion)
      (hresolves : r.Resolves primitives.operators) (h : r.settings.fault? = some cause) :
      Verdict primitives dataset r (some (.settings cause))
  | tooDeep {depth : Nat} (hversion : r.version = currentVersion)
      (hresolves : r.Resolves primitives.operators) (hvalid : r.settings.Valid)
      (hdepth : r.depth? = some depth) (h : r.settings.maxDepth < depth) :
      Verdict primitives dataset r (some (.root (.tooDeep depth r.settings.maxDepth)))
  | unknownVariable {top : Nat} (hversion : r.version = currentVersion)
      (hresolves : r.Resolves primitives.operators) (hvalid : r.settings.Valid)
      (hshallow : r.IsShallow) (htop : r.IsTopVar top) (h : dataset.variableCount ≤ top) :
      Verdict primitives dataset r (some (.root (.unknownVariable top dataset.variableCount)))
  | accepted (hversion : r.version = currentVersion)
      (hresolves : r.Resolves primitives.operators) (hvalid : r.settings.Valid)
      (hshallow : r.IsShallow)
      (hvars : ∀ index, .var index ∈ r.nodes → index < dataset.variableCount) :
      Verdict primitives dataset r none

/-- Where nothing is wrong with the nodes, the record is that of an expression. -/
theorem Resolves.exists_recordedRoot (h : r.Resolves ops) :
    ∃ root, Individual.recordedRoot ops r.root = .ok root ∧ root.map Expr.toRecord = r.root := by
  unfold Resolves nodes at h
  cases hroot : r.root with
  | none => exact ⟨none, rfl, rfl⟩
  | some root =>
    rw [hroot] at h
    have hnodes := ExprRecord.findSome?_nodes ops root
    rw [List.findSome?_eq_none_iff.2 h] at hnodes
    cases hresolve : root.resolve ops with
    | error cause =>
      rw [hresolve] at hnodes
      cases hnodes
    | ok e =>
      refine ⟨some e, ?_, congrArg some (ExprRecord.isOver_of_resolve hresolve).2⟩
      simp only [Individual.recordedRoot, hresolve]

/-- The first faulty node is what the expression is refused for. -/
theorem recordedRoot_of_findSome? {cause : ResolveError}
    (h : r.nodes.findSome? (ExprRecord.fault? ops) = some cause) :
    Individual.recordedRoot ops r.root = .error (.expression cause) := by
  unfold nodes at h
  cases hroot : r.root with
  | none =>
    rw [hroot] at h
    cases h
  | some root =>
    rw [hroot] at h
    have hnodes := ExprRecord.findSome?_nodes ops root
    rw [h] at hnodes
    cases hresolve : root.resolve ops with
    | error found =>
      rw [hresolve] at hnodes
      cases hnodes
      simp only [Individual.recordedRoot, hresolve]
    | ok e =>
      rw [hresolve] at hnodes
      cases hnodes

section Recorded

variable {root : Option Expr} {e : Expr}

/-- A record keeps the depth of its expression. -/
theorem depth?_eq (h : root.map Expr.toRecord = r.root) : r.depth? = root.map Expr.depth := by
  rw [depth?, ← h, Option.map_map]
  refine congrArg (root.map ·) (funext fun e => ?_)
  show e.toRecord.height - 1 = e.height - 1
  rw [ExprRecord.height_toRecord]

/-- The recorded variables are those of the expression. -/
theorem var_mem_nodes_iff (h : root.map Expr.toRecord = r.root) {index : Nat} :
    .var index ∈ r.nodes ↔ ∃ e, root = some e ∧ Symbol.var index ∈ e.symbols := by
  rw [nodes, ← h]
  cases root with
  | none => simp
  | some e => simpa using ExprRecord.var_mem_nodes_toRecord

theorem isTopVar_iff (h : (some e).map Expr.toRecord = r.root) {top : Nat} :
    r.IsTopVar top ↔ e.maxVar? = some top := by
  rw [Expr.maxVar?_eq_some_iff, IsTopVar]
  simp [var_mem_nodes_iff h]

end Recorded

/-- **There is a verdict on every record.** -/
theorem exists_verdict (primitives : PrimitiveSet) (dataset : Dataset) (r : Record) :
    ∃ refusal, Verdict primitives dataset r refusal := by
  by_cases hversion : r.version = currentVersion
  case neg => exact ⟨_, .unsupportedVersion hversion⟩
  cases hfault : r.nodes.findSome? (ExprRecord.fault? primitives.operators) with
  | some cause => exact ⟨_, .expression hversion hfault⟩
  | none =>
    have hresolves : r.Resolves primitives.operators := List.findSome?_eq_none_iff.1 hfault
    cases hsettings : r.settings.fault? with
    | some cause => exact ⟨_, .settings hversion hresolves hsettings⟩
    | none =>
      have hvalid : r.settings.Valid := Settings.fault?_eq_none_iff.1 hsettings
      by_cases hshallow : r.IsShallow
      · by_cases hvars : ∀ index, .var index ∈ r.nodes → index < dataset.variableCount
        · exact ⟨_, .accepted hversion hresolves hvalid hshallow hvars⟩
        · -- some index is out of range, and so is the greatest
          obtain ⟨root, -, hrecord⟩ := hresolves.exists_recordedRoot
          simp only [Classical.not_forall] at hvars
          obtain ⟨index, hmem, hindex⟩ := hvars
          obtain ⟨e, rfl, hs⟩ := (var_mem_nodes_iff hrecord).1 hmem
          obtain ⟨top, hmax⟩ := Expr.exists_maxVar?_of_mem hs
          have htop : r.IsTopVar top := (isTopVar_iff hrecord).2 hmax
          have hle := htop.2 index hmem
          exact ⟨_, .unknownVariable hversion hresolves hvalid hshallow htop (by omega)⟩
      · simp only [IsShallow, Classical.not_forall] at hshallow
        obtain ⟨depth, hdepth, hdeep⟩ := hshallow
        exact ⟨_, .tooDeep hversion hresolves hvalid hdepth (Nat.lt_of_not_le hdeep)⟩

end Record

/-! ## Restoring -/

namespace Individual

variable {primitives : PrimitiveSet} {dataset : Dataset} {r : Record}

/-- What an attempt to restore was refused for, if it was. -/
def refusal? : Except LoadError Restored → Option LoadError
  | .error cause => some cause
  | .ok _ => none

theorem refusal?_eq_some_iff {outcome : Except LoadError Restored} {cause : LoadError} :
    refusal? outcome = some cause ↔ outcome = .error cause := by
  cases outcome with
  | error found => simp [refusal?]
  | ok restored => simp [refusal?]

theorem refusal?_eq_none_iff {outcome : Except LoadError Restored} :
    refusal? outcome = none ↔ ∃ restored, outcome = .ok restored := by
  cases outcome with
  | error found => simp [refusal?]
  | ok restored => simp [refusal?]

/-- Behind the version, the nodes and the settings there is the root to be set. -/
theorem ofRecord_eq_withRecorded {root : Option Expr} (hversion : r.version = currentVersion)
    (hroot : recordedRoot primitives.operators r.root = .ok root) (hvalid : r.settings.Valid) :
    ofRecord primitives dataset r =
      (Individual.mk none invalidFitness r.settings primitives dataset).withRecorded root := by
  rw [ofRecord, if_neg (not_not_intro hversion), hroot, create_eq_ok hvalid]

/-- **The verdict is what happens.** -/
theorem refusal?_ofRecord {refusal : Option LoadError}
    (h : Record.Verdict primitives dataset r refusal) :
    refusal? (ofRecord primitives dataset r) = refusal := by
  cases h with
  | unsupportedVersion h =>
    rw [ofRecord, if_pos h]
    rfl
  | expression hversion h =>
    rw [ofRecord, if_neg (not_not_intro hversion), Record.recordedRoot_of_findSome? h]
    rfl
  | settings hversion hresolves h =>
    obtain ⟨root, hroot, -⟩ := hresolves.exists_recordedRoot
    rw [ofRecord, if_neg (not_not_intro hversion), hroot, create, h]
    rfl
  | @tooDeep depth hversion hresolves hvalid hdepth h =>
    obtain ⟨root, hroot, hrecord⟩ := hresolves.exists_recordedRoot
    rw [Record.depth?_eq hrecord, Option.map_eq_some_iff] at hdepth
    obtain ⟨e, rfl, rfl⟩ := hdepth
    rw [ofRecord_eq_withRecorded hversion hroot hvalid, withRecorded, setRoot, rootFault?, if_pos h]
    rfl
  | @unknownVariable top hversion hresolves hvalid hshallow htop h =>
    obtain ⟨root, hroot, hrecord⟩ := hresolves.exists_recordedRoot
    obtain ⟨e, rfl, -⟩ := (Record.var_mem_nodes_iff hrecord).1 htop.1
    have hdepth : e.depth ≤ r.settings.maxDepth :=
      hshallow e.depth (Record.depth?_eq hrecord)
    rw [ofRecord_eq_withRecorded hversion hroot hvalid, withRecorded, setRoot, rootFault?,
      if_neg (Nat.not_lt.2 hdepth), (Record.isTopVar_iff hrecord).1 htop]
    simp only [if_neg (Nat.not_lt.2 h)]
    rfl
  | accepted hversion hresolves hvalid hshallow hvars =>
    obtain ⟨root, hroot, hrecord⟩ := hresolves.exists_recordedRoot
    rw [refusal?_eq_none_iff, ofRecord_eq_withRecorded hversion hroot hvalid]
    cases root with
    | none => exact ⟨_, rfl⟩
    | some e =>
      have hadmits : (Individual.mk none invalidFitness r.settings primitives dataset).Admits e :=
        ⟨hshallow e.depth (Record.depth?_eq hrecord), fun index hs =>
          hvars index ((Record.var_mem_nodes_iff hrecord).2 ⟨e, rfl, hs⟩)⟩
      rw [withRecorded, setRoot_eq_ok_iff.2 ⟨hadmits, rfl⟩]
      exact ⟨_, rfl⟩

/-- What a record is refused for is what the verdict says. -/
theorem ofRecord_eq_error_iff {cause : LoadError} :
    ofRecord primitives dataset r = .error cause ↔
      Record.Verdict primitives dataset r (some cause) := by
  rw [← refusal?_eq_some_iff]
  obtain ⟨refusal, h⟩ := Record.exists_verdict primitives dataset r
  constructor
  · intro hcause
    rw [← hcause, refusal?_ofRecord h]
    exact h
  · exact refusal?_ofRecord

/-- A record that the verdict accepts is restored, and no other. -/
theorem exists_ok_iff_verdict :
    (∃ restored, ofRecord primitives dataset r = .ok restored) ↔
      Record.Verdict primitives dataset r none := by
  rw [← refusal?_eq_none_iff]
  obtain ⟨refusal, h⟩ := Record.exists_verdict primitives dataset r
  constructor
  · intro hnone
    rw [← hnone, refusal?_ofRecord h]
    exact h
  · exact refusal?_ofRecord

/-- Only another version is refused for the version. -/
theorem ofRecord_eq_unsupportedVersion_iff {version : Nat} :
    ofRecord primitives dataset r = .error (.unsupportedVersion version) ↔
      r.version ≠ currentVersion ∧ version = r.version := by
  rw [ofRecord_eq_error_iff]
  constructor
  · intro h
    cases h with
    | unsupportedVersion h => exact ⟨h, rfl⟩
  · rintro ⟨h, rfl⟩
    exact .unsupportedVersion h

/-- The expression is refused for the first faulty node, before which there is none. -/
theorem ofRecord_eq_expression_iff {cause : ResolveError} :
    ofRecord primitives dataset r = .error (.expression cause) ↔ r.version = currentVersion ∧
      ∃ before node after, r.nodes = before ++ node :: after ∧
        node.fault? primitives.operators = some cause ∧
        ∀ earlier ∈ before, earlier.fault? primitives.operators = none := by
  rw [ofRecord_eq_error_iff, ← List.findSome?_eq_some_iff]
  constructor
  · intro h
    cases h with
    | expression hversion h => exact ⟨hversion, h⟩
  · rintro ⟨hversion, h⟩
    exact .expression hversion h

/-- The settings are looked at when nothing is wrong with the nodes. -/
theorem ofRecord_eq_settings_iff {cause : SettingsError} :
    ofRecord primitives dataset r = .error (.settings cause) ↔ r.version = currentVersion ∧
      r.Resolves primitives.operators ∧ r.settings.fault? = some cause := by
  rw [ofRecord_eq_error_iff]
  constructor
  · intro h
    cases h with
    | settings hversion hresolves h => exact ⟨hversion, hresolves, h⟩
  · rintro ⟨hversion, hresolves, h⟩
    exact .settings hversion hresolves h

/-- The depth is looked at when nothing is wrong with the nodes and the settings. -/
theorem ofRecord_eq_tooDeep_iff {depth maxDepth : Nat} :
    ofRecord primitives dataset r = .error (.root (.tooDeep depth maxDepth)) ↔
      r.version = currentVersion ∧ r.Resolves primitives.operators ∧ r.settings.Valid ∧
        r.depth? = some depth ∧ maxDepth = r.settings.maxDepth ∧ maxDepth < depth := by
  rw [ofRecord_eq_error_iff]
  constructor
  · intro h
    cases h with
    | tooDeep hversion hresolves hvalid hdepth h =>
      exact ⟨hversion, hresolves, hvalid, hdepth, rfl, h⟩
  · rintro ⟨hversion, hresolves, hvalid, hdepth, rfl, h⟩
    exact .tooDeep hversion hresolves hvalid hdepth h

/-- The variables are looked at last, and the greatest one stands for all of them. -/
theorem ofRecord_eq_unknownVariable_iff {top count : Nat} :
    ofRecord primitives dataset r = .error (.root (.unknownVariable top count)) ↔
      r.version = currentVersion ∧ r.Resolves primitives.operators ∧ r.settings.Valid ∧
        r.IsShallow ∧ r.IsTopVar top ∧ count = dataset.variableCount ∧ count ≤ top := by
  rw [ofRecord_eq_error_iff]
  constructor
  · intro h
    cases h with
    | unknownVariable hversion hresolves hvalid hshallow htop h =>
      exact ⟨hversion, hresolves, hvalid, hshallow, htop, rfl, h⟩
  · rintro ⟨hversion, hresolves, hvalid, hshallow, htop, rfl, h⟩
    exact .unknownVariable hversion hresolves hvalid hshallow htop h

/-- A record in which nothing is wrong is restored. -/
theorem exists_ofRecord_eq_ok_iff :
    (∃ restored, ofRecord primitives dataset r = .ok restored) ↔
      r.version = currentVersion ∧ r.Resolves primitives.operators ∧ r.settings.Valid ∧
        r.IsShallow ∧ ∀ index, .var index ∈ r.nodes → index < dataset.variableCount := by
  rw [exists_ok_iff_verdict]
  constructor
  · intro h
    cases h with
    | accepted hversion hresolves hvalid hshallow hvars =>
      exact ⟨hversion, hresolves, hvalid, hshallow, hvars⟩
  · rintro ⟨hversion, hresolves, hvalid, hshallow, hvars⟩
    exact .accepted hversion hresolves hvalid hshallow hvars

/-! ## Recording again -/

/-- An individual with the right fitness records the error of its expression, if that fits. -/
theorem Scored.fitness_toRecord {i : Individual} (hi : i.Scored) {error : Float} :
    i.toRecord.fitness = some error ↔ ∃ predictions, i.HasFit predictions error := by
  show (if i.isValid then some i.fitness else none) = some error ↔ _
  rcases hi with ⟨predictions, hfit⟩ | ⟨hnone, hfitness⟩
  · have hvalid : i.isValid = true := by
      obtain ⟨root, -, hfit⟩ := hfit
      exact hfit.error_finite
    rw [if_pos hvalid, Option.some_inj]
    constructor
    · rintro rfl
      exact ⟨predictions, hfit⟩
    · rintro ⟨predictions', hfit'⟩
      exact (hfit.unique hfit').2
  · have hinvalid : ¬ i.isValid = true := by
      rw [isValid, hfitness, isFinite_invalidFitness]
      exact Bool.false_ne_true
    rw [if_neg hinvalid]
    constructor
    · rintro ⟨⟩
    · rintro ⟨predictions, hfit⟩
      exact absurd ⟨predictions, error, hfit⟩ hnone

/-- What is restored is recorded as it was, but for the fitness. -/
theorem toRecord_ofRecord {restored : Restored}
    (h : ofRecord primitives dataset r = .ok restored) :
    restored.individual.toRecord = { r with fitness := restored.individual.toRecord.fitness } := by
  obtain ⟨hversion, hresolves, -⟩ := exists_ofRecord_eq_ok_iff.1 ⟨restored, h⟩
  obtain ⟨-, root, hroot, -, hrestored⟩ := passed_of_ofRecord h
  obtain ⟨found, hfound, hrecord⟩ := hresolves.exists_recordedRoot
  obtain rfl : root = found := Except.ok.inj (hroot.symm.trans hfound)
  have hsettings : restored.individual.settings = r.settings := by
    rw [hrestored, settings_rescore]
  have hkept : restored.individual.root.map Expr.toRecord = r.root := by
    rw [hrestored, root_rescore, hrecord]
  rw [toRecord, hsettings, hkept, ← hversion]

/-! ## Main statement -/

/-- **What each record is refused for.**  A record of another version is refused for that.
Of the others one with a faulty node is refused for the first such node; of the rest one with
settings that are refused is refused for these; of the rest one that is deeper than its settings
allow is refused for its depth; and of the rest one with a variable that the dataset does not
have is refused for the greatest one.  All others are restored.  The record of what is
restored has the same version, settings and expression, and for its fitness the error of the
expression on the dataset, if it fits; what the first record says about the fitness makes no
difference. -/
theorem ofRecord_refuses_first_fault (primitives : PrimitiveSet) (dataset : Dataset) (r : Record) :
    let outcome := ofRecord primitives dataset r
    let ops := primitives.operators
    (∀ version, outcome = .error (.unsupportedVersion version) ↔
      r.version ≠ currentVersion ∧ version = r.version) ∧
    (∀ cause, outcome = .error (.expression cause) ↔ r.version = currentVersion ∧
      ∃ before node after, r.nodes = before ++ node :: after ∧ node.fault? ops = some cause ∧
        ∀ earlier ∈ before, earlier.fault? ops = none) ∧
    (∀ cause, outcome = .error (.settings cause) ↔ r.version = currentVersion ∧
      r.Resolves ops ∧ r.settings.fault? = some cause) ∧
    (∀ depth maxDepth, outcome = .error (.root (.tooDeep depth maxDepth)) ↔
      r.version = currentVersion ∧ r.Resolves ops ∧ r.settings.Valid ∧ r.depth? = some depth ∧
        maxDepth = r.settings.maxDepth ∧ maxDepth < depth) ∧
    (∀ top count, outcome = .error (.root (.unknownVariable top count)) ↔
      r.version = currentVersion ∧ r.Resolves ops ∧ r.settings.Valid ∧ r.IsShallow ∧
        r.IsTopVar top ∧ count = dataset.variableCount ∧ count ≤ top) ∧
    ((∃ restored, outcome = .ok restored) ↔
      r.version = currentVersion ∧ r.Resolves ops ∧ r.settings.Valid ∧ r.IsShallow ∧
        ∀ index, .var index ∈ r.nodes → index < dataset.variableCount) ∧
    (∀ restored, outcome = .ok restored →
      let i := restored.individual
      i.primitives = primitives ∧ i.dataset = dataset ∧ i.toRecord.version = r.version ∧
        i.toRecord.settings = r.settings ∧ i.toRecord.root = r.root ∧
        ∀ error, i.toRecord.fitness = some error ↔ ∃ predictions, i.HasFit predictions error) ∧
    ∀ fitness, ofRecord primitives dataset { r with fitness } = outcome := by
  intro outcome ops
  refine ⟨?_, ?_, ?_, ?_, ?_, exists_ofRecord_eq_ok_iff, ?_, fun fitness => rfl⟩
  · intro version
    exact ofRecord_eq_unsupportedVersion_iff
  · intro cause
    exact ofRecord_eq_expression_iff
  · intro cause
    exact ofRecord_eq_settings_iff
  · intro depth maxDepth
    exact ofRecord_eq_tooDeep_iff
  · intro top count
    exact ofRecord_eq_unknownVariable_iff
  · intro restored h i
    have hrecord : i.toRecord = { r with fitness := i.toRecord.fitness } := toRecord_ofRecord h
    have hscored : i.Scored := (sound_ofRecord h).scored
    obtain ⟨-, root, -, -, hrestored⟩ := passed_of_ofRecord h
    have hprimitives : i.primitives = primitives := by
      show restored.individual.primitives = primitives
      rw [hrestored, primitives_rescore]
    have hdataset : i.dataset = dataset := by
      show restored.individual.dataset = dataset
      rw [hrestored, dataset_rescore]
    rw [hrecord]
    exact ⟨hprimitives, hdataset, rfl, rfl, rfl, fun error => hscored.fitness_toRecord⟩

/-- Over the operators of the parabola, the record of an unknown operator over an infinite
constant is refused for the operator, and that of the square is restored and recorded again. -/
theorem ofRecord_refuses_first_fault_parabola :
    ofRecord unguarded twoSquares ⟨currentVersion, {}, some (.unary "cube" (.const (1.0 / 0.0))),
        none⟩ = .error (.expression (.unknownOperator "cube" 1)) ∧
      ∃ restored, ofRecord unguarded twoSquares ⟨currentVersion, {}, some squared.toRecord, none⟩ =
        .ok restored ∧ restored.individual.toRecord.root = some squared.toRecord := by
  constructor
  · obtain ⟨-, hexpression, -⟩ := ofRecord_refuses_first_fault unguarded twoSquares
      ⟨currentVersion, {}, some (.unary "cube" (.const (1.0 / 0.0))), none⟩
    refine (hexpression (.unknownOperator "cube" 1)).2 ⟨rfl, [], _, _, rfl, by decide, ?_⟩
    intro earlier hmem
    cases hmem
  · obtain ⟨-, -, -, -, -, hok, hback, -⟩ := ofRecord_refuses_first_fault unguarded twoSquares
      ⟨currentVersion, {}, some squared.toRecord, none⟩
    have hresolves : ∀ node ∈ squared.toRecord.nodes, node.fault? unguarded.operators = none := by
      decide
    have hshallow : ∀ depth, some squared.toRecord.depth = some depth → depth ≤ 6 := by
      rintro depth ⟨⟩
      decide
    have hvars : ∀ index, .var index ∈ squared.toRecord.nodes → index < 1 := by
      intro index hmem
      simp [squared, Expr.toRecord, ExprRecord.nodes] at hmem
      omega
    have hvalid : ({} : Settings).Valid := Settings.fault?_eq_none_iff.1 (by decide)
    obtain ⟨restored, hrestored⟩ := hok.2 ⟨rfl, hresolves, hvalid, hshallow, hvars⟩
    obtain ⟨-, -, -, -, hroot, -⟩ := hback restored hrestored
    exact ⟨restored, hrestored, hroot⟩

end Individual

end SymbolicRegression
