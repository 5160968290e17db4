/-
# Expressions as JSON

A record keeps an expression with the names of its operators.

* `ExprRecord` : expressions with names in place of operators;
* `Expr.toRecord`, `ExprRecord.resolve` : from expressions and back, given the operators;
* `ExprRecord.toJson` : a recorded expression as a value;
* `ExprRecord.ofJson?` : the recorded expression that a value describes.
-/
import SymbolicRegression.Expr.Basic
import SymbolicRegression.Json.Fields
import SymbolicRegression.Operator.Set
import SymbolicRegression.Message

namespace SymbolicRegression

/-- An expression with names in place of operators. -/
inductive ExprRecord
  | binary (op : String) (left right : ExprRecord)
  | unary (op : String) (operand : ExprRecord)
  | var (index : Nat)
  | const (value : Float)
  deriving Inhabited

/-- The record of an expression. -/
def Expr.toRecord : Expr → ExprRecord
  | .binary op left right => .binary op.name left.toRecord right.toRecord
  | .unary op operand => .unary op.name operand.toRecord
  | .var index => .var index
  | .const value => .const value

/-- Why a recorded expression cannot be restored. -/
inductive ResolveError
  /-- An operator is not in the set, or not with that many operands. -/
  | unknownOperator (name : String) (arity : Nat)
  /-- A constant is infinite or a NaN. -/
  | notFinite (value : Float)
  deriving DecidableEq, Repr

/-- The wording of an error. -/
def ResolveError.message : ResolveError → String
  | .unknownOperator name arity =>
      "no " ++ toString arity ++ "-ary operator named `" ++ name ++ "` is registered"
  | .notFinite value => "stored constant " ++ messageText value ++ " is not finite"

namespace ExprRecord

/-- The expression of a record over a set of operators.  Of several faults the
first counts, where an operator stands before its operands. -/
def resolve (ops : OperatorSet) : ExprRecord → Except ResolveError Expr
  | .binary name left right =>
      match ops.findBinary? name with
      | none => .error (.unknownOperator name 2)
      | some op =>
          match left.resolve ops with
          | .error e => .error e
          | .ok left =>
              match right.resolve ops with
              | .error e => .error e
              | .ok right => .ok (.binary op left right)
  | .unary name operand =>
      match ops.findUnary? name with
      | none => .error (.unknownOperator name 1)
      | some op =>
          match operand.resolve ops with
          | .error e => .error e
          | .ok operand => .ok (.unary op operand)
  | .var index => .ok (.var index)
  | .const value => if value.isFinite then .ok (.const value) else .error (.notFinite value)

/-! ## Writing -/

/-- A recorded expression as a value. -/
def toJson : ExprRecord → Json
  | .binary op left right =>
      .ofMembers [("type", .ofString "binary"), ("op", .ofString op), ("left", left.toJson),
        ("right", right.toJson)]
  | .unary op operand =>
      .ofMembers [("type", .ofString "unary"), ("op", .ofString op), ("child", operand.toJson)]
  | .var index => .ofMembers [("type", .ofString "variable"), ("index", .ofNat index)]
  | .const value => .ofMembers [("type", .ofString "constant"), ("value", .encodeFloat value)]

/-! ## Kinds -/

/-- The kinds of recorded expressions. -/
inductive Kind
  | binary
  | unary
  | var
  | const
  deriving DecidableEq, Repr

/-- The kind of a name. -/
def Kind.ofName? (name : String) : Option Kind :=
  if name = "binary" then some .binary
  else if name = "unary" then some .unary
  else if name = "variable" then some .var
  else if name = "constant" then some .const
  else none

/-- The kind of a number. -/
def Kind.ofNumber? : Nat → Option Kind
  | 0 => some .binary
  | 1 => some .unary
  | 2 => some .var
  | 3 => some .const
  | _ => none

/-- The kind that a value tells, by name or by number. -/
def Kind.ofJson? (json : Json) : Option Kind :=
  match json with
  | .string text => text.toString?.bind ofName?
  | _ => (json.natBelow? 4).bind ofNumber?

/-- The fields of a kind, in their order. -/
def Kind.fieldNames : Kind → List String
  | .binary => ["op", "left", "right"]
  | .unary => ["op", "child"]
  | .var => ["index"]
  | .const => ["value"]

/-! ## Reading -/

/-- A value and the recorded expression that it describes, if it describes one. -/
structure Part where
  json : Json
  record : Option ExprRecord

/-- The expression of a kind with the given fields. -/
def ofFields? : Kind → List Part → Option ExprRecord
  | .binary, [op, left, right] =>
    return .binary (← op.json.asString?) (← left.record) (← right.record)
  | .unary, [op, operand] => return .unary (← op.json.asString?) (← operand.record)
  | .var, [index] => return .var (← index.json.natBelow? wordBound)
  | .const, [value] => return .const (← value.json.float?)
  | _, _ => none

/-- The only part of a name. -/
def onlyPart? (parts : List (JsonText × Part)) (name : String) : Option Part :=
  match parts.filter fun part => part.1.toString? == some name with
  | [(_, part)] => some part
  | _ => none

/-- The expression that the members of an object describe: a type, which may
stand anywhere, and the fields of that type, each once; other members are skipped. -/
def ofMembers? (parts : List (JsonText × Part)) : Option ExprRecord := do
  let type ← onlyPart? parts "type"
  let kind ← Kind.ofJson? type.json
  let fields ← kind.fieldNames.mapM (onlyPart? parts)
  ofFields? kind fields

/-- The expression that the items of an array describe: a type and its fields. -/
def ofItems? : List Part → Option ExprRecord
  | [] => none
  | type :: fields => do ofFields? (← Kind.ofJson? type.json) fields

mutual

/-- The expression that a value describes. -/
def ofValue? : Json → Option ExprRecord
  | .object members => ofMembers? (memberParts members)
  | .array items => ofItems? (itemParts items)
  | _ => none

/-- The members of an object, each with the expression that it describes. -/
def memberParts : List (JsonText × Json) → List (JsonText × Part)
  | [] => []
  | (key, value) :: rest => (key, ⟨value, ofValue? value⟩) :: memberParts rest

/-- The items of an array, each with the expression that it describes. -/
def itemParts : List Json → List Part
  | [] => []
  | item :: rest => ⟨item, ofValue? item⟩ :: itemParts rest

end

end ExprRecord

/-! ## What can be read at all -/

namespace Json

mutual

/-- Whether a value can be held while its type is not known yet: each number has
a value, each string is one of characters, and arrays and objects are nested at
most `depth` deep. -/
def isHoldable (depth : Nat) : Json → Bool
  | .null | .bool _ => true
  | .number n => (Number.ofNumeral? n).isSome
  | .string text => text.toString?.isSome
  | .array items =>
      match depth with
      | 0 => false
      | depth + 1 => itemsHoldable depth items
  | .object members =>
      match depth with
      | 0 => false
      | depth + 1 => membersHoldable depth members

/-- Whether all items of an array can be held. -/
def itemsHoldable (depth : Nat) : List Json → Bool
  | [] => true
  | item :: rest => isHoldable depth item && itemsHoldable depth rest

/-- Whether all members of an object can be held. -/
def membersHoldable (depth : Nat) : List (JsonText × Json) → Bool
  | [] => true
  | (key, value) :: rest =>
      key.toString?.isSome && isHoldable depth value && membersHoldable depth rest

end

end Json

namespace ExprRecord

/-- Whether a value tells its type by a name. -/
def typeIsNamed : Json → Bool
  | .object members => members.any fun member =>
      member.1.toString? == some "type" && member.2.asString?.isSome
  | .array (type :: _) => type.asString?.isSome
  | _ => false

/-- How deep arrays and objects may be nested in a recorded expression. -/
def depthLimit : Nat := 126

/-- The recorded expression that a value describes.  Its outermost type must be
told by a name; below it a number will do. -/
def ofJson? (json : Json) : Option ExprRecord :=
  if json.isHoldable depthLimit && typeIsNamed json then ofValue? json else none

end ExprRecord

end SymbolicRegression
