import ScriptLowering.Lower.Access

/-!
# Operators

An operator stays on unboxed values while its operands are unboxed, and is left to the runtime
otherwise. The arithmetic operators other than `+` always work on numbers: each operand is converted
as soon as it is there, so that a sum that is used as a number is computed in one step.

The operands of an operator are given as computations, to be run when their turn comes.
-/

namespace ScriptLowering

/-- How a binary operator is carried out. -/
inductive OperatorClass where
  /-- The sum of numbers, the concatenation of strings, or whatever the runtime finds. -/
  | addition
  /-- Arithmetic on numbers. -/
  | arithmetic (op : NumericOp)
  /-- A test. -/
  | relation (op : DynamicOp)
deriving DecidableEq, Inhabited

/-- The class of a binary operator. -/
def BinaryOp.operatorClass : BinaryOp → OperatorClass
  | .add => .addition
  | .sub => .arithmetic .sub
  | .mul => .arithmetic .mul
  | .div => .arithmetic .div
  | .mod => .arithmetic .mod
  | .exp => .arithmetic .exp
  | .bitAnd => .arithmetic .bitAnd
  | .bitOr => .arithmetic .bitOr
  | .bitXor => .arithmetic .bitXor
  | .shl => .arithmetic .shl
  | .shr => .arithmetic .shr
  | .ushr => .arithmetic .ushr
  | .lt => .relation .lt
  | .le => .relation .le
  | .gt => .relation .gt
  | .ge => .relation .ge
  | .looseEq => .relation .looseEq
  | .looseNe => .relation .looseNe
  | .strictEq => .relation .strictEq
  | .strictNe => .relation .strictNe
  | .instanceOf => .relation .instanceOf
  | .memberIn => .relation .memberIn

/-- The comparison of two numbers that a relation amounts to. On numbers, strict and loose equality
are the same. -/
def DynamicOp.onNumbers? : DynamicOp → Option CompareOp
  | .lt => some .lt
  | .le => some .le
  | .gt => some .gt
  | .ge => some .ge
  | .strictEq | .looseEq => some .eq
  | .strictNe | .looseNe => some .ne
  | .instanceOf | .memberIn => none

namespace Lower

/-- Arithmetic on numbers. -/
def arithmetic (op : NumericOp) (left right : Temp) : Lower Temp :=
  define .double (.numeric op left right)

/-- The sum of two values. A string and a bare primitive, or two strings, are concatenated; two bare
primitives are added as numbers. -/
def addValues (left right : Temp) : Lower Temp := do
  let l ← storageOf left
  let r ← storageOf right
  if (l.isString || r.isString) && (l.isString || l.isUnboxed) && (r.isString || r.isUnboxed) then
    let left ← asText left
    let right ← asText right
    define .string (.concat left right)
  else if l.isUnboxed && r.isUnboxed then
    let left ← asNumber left
    let right ← asNumber right
    arithmetic .add left right
  else
    let left ← asObject left
    let right ← asObject right
    define .object (.add left right)

/-- A test of two values, as a comparison of numbers if both are unboxed doubles. -/
def relate (op : DynamicOp) (left right : Temp) : Lower Temp := do
  let doubles := (← storageOf left).isUnboxedDouble && (← storageOf right).isUnboxedDouble
  match doubles, op.onNumbers? with
  | true, some compare => define .bool (.compare compare left right)
  | _, _ =>
    let left ← asObject left
    let right ← asObject right
    define .bool (.dynamic op left right)

/-- A binary operator on two values. -/
def applyBinary (op : BinaryOp) (left right : Temp) : Lower Temp := do
  match op.operatorClass with
  | .addition => addValues left right
  | .arithmetic numeric =>
    let left ← asNumber left
    let right ← asNumber right
    arithmetic numeric left right
  | .relation dynamic => relate dynamic left right

/-- A binary operator on two operands. -/
def binary (op : BinaryOp) (left right : Lower Temp) : Lower Temp := do
  match op.operatorClass with
  | .arithmetic numeric =>
    let l ← asNumber (← left)
    let r ← asNumber (← right)
    arithmetic numeric l r
  | _ =>
    let l ← left
    let r ← right
    applyBinary op l r

/-- A unary operator on an operand. -/
def unary (op : UnaryOp) (operand : Lower Temp) : Lower Temp := do
  let value ← operand
  match op with
  | .neg =>
    let number ← asNumber value
    define .double (.numericUnary .neg number)
  | .bitNot =>
    let number ← asNumber value
    define .double (.numericUnary .bitNot number)
  | .plus => asNumber value
  | .not =>
    let truth ← asBoolean value
    define .bool (.not truth)
  | .typeOf =>
    let object ← asObject value
    define .string (.typeOf object)
  | .void => undefined

/-- When a logical operator skips its right operand: the value of a condition, and the condition. -/
def logicalTest (op : LogicalOp) (left : Temp) : Lower (Bool × Temp) := do
  match op with
  | .and => return (false, ← asBoolean left)
  | .or => return (true, ← asBoolean left)
  | .nullish =>
    let value ← asObject left
    return (false, ← define .bool (.isNullish value))

/-- A logical operator: the right operand runs only if the left one does not decide. -/
def logical (op : LogicalOp) (left right : Lower Temp) : Lower Temp := do
  let carrier ← joinCarrier "logical" .object
  let skip ← freshLabel
  let join ← freshLabel
  let value ← left
  let (expected, condition) ← logicalTest op value
  branchIf expected condition skip
  storeCarrier carrier (← right)
  branch join
  place skip
  storeCarrier carrier value
  place join
  loadCarrier carrier

/-- A condition as an unboxed boolean. -/
def condition (test : Lower Temp) : Lower Temp := do
  asBoolean (← test)

/-- A conditional expression. -/
def conditional (test consequent alternate : Lower Temp) : Lower Temp := do
  let carrier ← joinCarrier "conditional" .object
  let other ← freshLabel
  let finish ← freshLabel
  let holds ← condition test
  branchIf false holds other
  storeCarrier carrier (← consequent)
  branch finish
  place other
  storeCarrier carrier (← alternate)
  place finish
  loadCarrier carrier

/-- `++` and `--`. Behind its target the operator yields the old number. -/
def update (op : UpdateOp) (inFront : Bool) (target : Target) : Lower Temp := do
  let old ← asNumber (← readTarget target)
  let one ← number (.ofNat 1)
  let updated ← applyBinary (match op with
    | .increment => .add
    | .decrement => .sub) old one
  writeTarget target updated
  return if inFront then updated else old

/-- Appends a text to those concatenated so far. -/
def concatText (before : Option Temp) (part : Temp) : Lower Temp :=
  match before with
  | none => pure part
  | some left => define .string (.concat left part)

/-- Appends a constant text to those concatenated so far; an empty one leaves no trace. -/
def concatConstant (before : Option Temp) (text : String) : Lower (Option Temp) := do
  if text.isEmpty then return before
  let part ← string text
  return some (← concatText before part)

/-- Appends constant texts to those concatenated so far. -/
def concatConstants : Option Temp → List String → Lower (Option Temp)
  | before, [] => pure before
  | before, text :: rest => do
    let joined ← concatConstant before text
    concatConstants joined rest

end Lower

end ScriptLowering
