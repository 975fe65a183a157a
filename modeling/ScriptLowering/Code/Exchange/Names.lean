import ScriptLowering.Code.Body
import ScriptLowering.Json.Value

/-!
# Names of the exchange form

In the exchange form of a body, each operator and each small choice is written as a name. The tables
below give those names; the same table serves for writing and for reading.
-/

namespace ScriptLowering.Exchange

open Json (Value)

/-- Reads a name. -/
def ofName? {α : Type} (table : List (String × α)) (v : Value) : Option α := do
  table.lookup (← v.text?)

/-- Writes a name. -/
def toName {α : Type} [DecidableEq α] (table : List (String × α)) (value : α) : Value :=
  Value.ofOption (fun entry => .string entry.1) (table.find? fun entry => entry.2 = value)

/-- Arithmetic operators. -/
def numericOps : List (String × NumericOp) :=
  [("Add", .add), ("Sub", .sub), ("Mul", .mul), ("Div", .div), ("Mod", .mod), ("Exp", .exp),
    ("BitAnd", .bitAnd), ("BitOr", .bitOr), ("BitXor", .bitXor), ("Shl", .shl), ("Shr", .shr),
    ("UShr", .ushr)]

/-- Comparisons. -/
def compareOps : List (String × CompareOp) :=
  [("Lt", .lt), ("Le", .le), ("Gt", .gt), ("Ge", .ge), ("Eq", .eq), ("Ne", .ne)]

/-- Operators of the runtime. -/
def dynamicOps : List (String × DynamicOp) :=
  [("LooseEq", .looseEq), ("LooseNe", .looseNe), ("StrictEq", .strictEq), ("StrictNe", .strictNe),
    ("Lt", .lt), ("Le", .le), ("Gt", .gt), ("Ge", .ge), ("InstanceOf", .instanceOf),
    ("In", .memberIn)]

/-- Unary arithmetic operators. -/
def numericUnaryOps : List (String × NumericUnaryOp) :=
  [("Neg", .neg), ("BitNot", .bitNot)]

/-- Errors. -/
def errorKinds : List (String × ErrorKind) :=
  [("TypeError", .typeError), ("ReferenceError", .referenceError)]

/-- Services of the runtime. -/
def helpers : List (String × RuntimeHelper) :=
  [("GetIterator", .getIterator), ("IteratorNext", .iteratorNext),
    ("IteratorResultDone", .iteratorResultDone), ("IteratorResultValue", .iteratorResultValue),
    ("IteratorClose", .iteratorClose), ("EnumerateKeys", .enumerateKeys),
    ("ObjectRest", .objectRest), ("ObjectAssign", .objectAssign)]

/-- What is waited for. -/
def suspendKinds : List (String × SuspendKind) :=
  [("Await", .await), ("Yield", .yield)]

/-- Kinds of protected regions. -/
def regionKinds : List (String × RegionKind) :=
  [("Catch", .catchHandler), ("Finally", .finallyHandler)]

/-- Kinds of resume points. -/
def resumeKinds : List (String × ResumeKind) :=
  [("Await", .await), ("Yield", .yield), ("Reject", .reject)]

/-- Representations. -/
def representations : List (String × Representation) :=
  [("UnboxedPrimitive", .unboxed), ("BoxedValue", .boxed), ("ObjectReference", .reference),
    ("Unknown", .unknown)]

/-- The types that carry no name. -/
def plainTypes : List (String × ValueType) :=
  [("Object", .object), ("Double", .double), ("Bool", .bool), ("String", .string),
    ("Array", .array), ("Function", .function), ("ScopesArray", .scopes), ("Iterator", .iterator)]

end ScriptLowering.Exchange
