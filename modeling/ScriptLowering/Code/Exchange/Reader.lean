import ScriptLowering.Code.Exchange.Names
import ScriptLowering.Number.Decimal

/-!
# Reading the exchange form

The inverse of writing: a body from a JSON value. Tables that are missing are empty. Nothing is
checked about how the tables and instructions fit together.
-/

namespace ScriptLowering.Exchange

open Json (Value)

/-! ### Identifiers and storage -/

/-- A temp. -/
def temp? (v : Value) : Option Temp := return ⟨← Value.nat? v⟩

/-- A slot. -/
def slot? (v : Value) : Option Slot := return ⟨← Value.nat? v⟩

/-- A label. -/
def label? (v : Value) : Option Label := return ⟨← Value.nat? v⟩

/-- A binding. -/
def binding? (v : Value) : Option BindingId := return ⟨← Value.nat? v⟩

/-- A callable. -/
def callable? (v : Value) : Option Callable := return ⟨← Value.text? v⟩

/-- A field of a capture object. -/
def fieldRef? (v : Value) : Option FieldRef :=
  return ⟨← Value.text? (v.field "scope"), ← Value.text? (v.field "name")⟩

/-- A number constant: an integer, or any number as text. -/
def number? : Value → Option Binary64
  | .string text => Decimal.read? text
  | .integer n => some (Decimal.ofInt n)
  | _ => none

/-- A type. -/
def type? (v : Value) : Option ValueType := do
  match ← v.variant? with
  | ("Scope", name) => return .scope (← Value.text? name)
  | ("UserClass", name) => return .userClass (← Value.text? name)
  | _ => ofName? plainTypes v

/-- A storage descriptor. -/
def storage? (v : Value) : Option Storage :=
  return ⟨← ofName? representations (v.field "kind"), ← type? (v.field "ty")⟩

/-! ### Instructions -/

/-- An element of a scope chain. -/
def scopeSource? (v : Value) : Option ScopeSource := do
  match ← v.variant? with
  | ("Leaf", _) => return .leaf
  | ("ScopesArgument", index) => return .received (← Value.nat? index)
  | ("Temp", temp) => return .temp (← temp? temp)
  | _ => none

/-- An entry of a dispatch table. -/
def stateLabel? (v : Value) : Option StateLabel :=
  return ⟨← Value.nat? (v.field "state"), ← label? (v.field "label")⟩

/-- Where a rejection continues. -/
def reject? (v : Value) : Option RejectRoute :=
  return ⟨← Value.nat? (v.field "resume_state"), ← fieldRef? (v.field "pending_exception")⟩

/-- A property of an object literal. -/
def property? (v : Value) : Option (String × Temp) :=
  return (← Value.text? (v.item 0), ← temp? (v.item 1))

/-- The operation of that name. -/
def operation? (tag : String) (p : Value) : Option Operation := do
  let temp (name : String) : Option Temp := temp? (p.field name)
  let temps (name : String) : Option (List Temp) := Value.list? temp? (p.field name)
  let text (name : String) : Option String := Value.text? (p.field name)
  let fieldRef : Option FieldRef := fieldRef? (p.field "field")
  match tag with
  | "ConstNumber" => return .literal (.number (← number? (p.field "value")))
  | "ConstString" => return .literal (.string (← text "value"))
  | "ConstBool" => return .literal (.bool (← Value.bool? (p.field "value")))
  | "ConstNull" => return .literal .null
  | "ConstUndefined" => return .literal .undefined
  | "CopyTemp" => return .copy (← temp "source")
  | "LoadSlot" => return .loadSlot (← slot? (p.field "slot"))
  | "LoadArgument" => return .loadArgument (← Value.nat? (p.field "index"))
  | "LoadThis" => return .loadThis
  | "LoadException" => return .loadException
  | "CreateScopeInstance" => return .newScope (← text "scope")
  | "LoadLeafScopeField" => return .loadLeafField (← fieldRef)
  | "LoadParentScopeField" =>
    return .loadParentField (← Value.nat? (p.field "index")) (← fieldRef)
  | "LoadScopeField" => return .loadScopeField (← temp "scope") (← fieldRef)
  | "BuildScopesArray" => return .buildScopes (← Value.list? scopeSource? (p.field "slots"))
  | "ConvertToObject" => return .coerce .toObject (← temp "source")
  | "ConvertToNumber" => return .coerce .toNumber (← temp "source")
  | "ConvertToBoolean" => return .coerce .toBoolean (← temp "source")
  | "IsTruthy" => return .coerce .truthiness (← temp "source")
  | "ConvertToString" => return .coerce .toText (← temp "source")
  | "TypeOf" => return .typeOf (← temp "value")
  | "IsNullOrUndefined" => return .isNullish (← temp "value")
  | "IsUndefined" => return .isUndefined (← temp "value")
  | "IsInstanceOf" => return .isInstance (← temp "value") (← text "class")
  | "BinaryNumber" =>
    return .numeric (← ofName? numericOps (p.field "op")) (← temp "left") (← temp "right")
  | "CompareNumber" =>
    return .compare (← ofName? compareOps (p.field "op")) (← temp "left") (← temp "right")
  | "UnaryNumber" =>
    return .numericUnary (← ofName? numericUnaryOps (p.field "op")) (← temp "operand")
  | "NotBool" => return .not (← temp "operand")
  | "ConcatStrings" => return .concat (← temp "left") (← temp "right")
  | "AddDynamic" => return .add (← temp "left") (← temp "right")
  | "AddAndToNumber" => return .addToNumber (← temp "left") (← temp "right")
  | "BinaryDynamic" =>
    return .dynamic (← ofName? dynamicOps (p.field "op")) (← temp "left") (← temp "right")
  | "NewBuiltInError" =>
    return .newError (← ofName? errorKinds (p.field "kind")) (← text "message")
  | "NewJsArray" => return .newArray (← temps "elements")
  | "BuildArray" => return .packArguments (← temps "elements")
  | "NewJsObject" => return .newObject (← Value.list? property? (p.field "properties"))
  | "GetProperty" => return .getProperty (← temp "object") (← text "name")
  | "GetItem" => return .getItem (← temp "object") (← temp "key")
  | "GetLength" => return .getLength (← temp "object")
  | "GetArrayElement" => return .getElement (← temp "array") (← temp "index")
  | "LoadUserClassInstanceField" =>
    return .loadField (← temp "receiver") (← text "class") (← text "field")
  | "NormalizeIterable" => return .normalizeIterable (← temp "source")
  | "GetIntrinsicGlobal" => return .globalValue (← text "name")
  | "GetUserClassType" => return .classValue (← text "class")
  | "CallFunction" =>
    return .callFunction (← callable? (p.field "callable")) (← temp "scopes")
      (← temps "args")
  | "CallFunctionValue" =>
    return .callValue (← temp "function") (← temp "scopes") (← temps "args")
  | "CallFunctionValueWithArray" =>
    return .callValuePacked (← temp "function") (← temp "scopes") (← temp "args_array")
  | "CallMethodValue" =>
    return .callMethodValue (← temp "function") (← temp "receiver") (← temp "scopes")
      (← temp "args_array")
  | "CallMember" =>
    return .callMember (← temp "receiver") (← text "name") (← temp "args_array")
  | "CallMemberFixed" =>
    return .callMemberFixed (← temp "receiver") (← text "name") (← temps "args")
  | "CallTypedMember" =>
    return .callTyped false (← text "class") (← text "name")
      (← callable? (p.field "callable")) (← temp "receiver") (← temps "args")
  | "CallTypedMemberWithFallback" =>
    return .callTyped true (← text "class") (← text "name")
      (← callable? (p.field "callable")) (← temp "receiver") (← temps "args")
  | "CallUserClassStaticMethod" =>
    return .callStatic (← text "class") (← text "name") (← callable? (p.field "callable"))
      (← temps "args")
  | "CallIntrinsicGlobal" => return .callGlobal (← text "name") (← temps "args")
  | "CallIntrinsicMember" =>
    return .callIntrinsicMember (← text "intrinsic") (← text "method") (← temps "args")
  | "CallRuntime" =>
    return .callRuntime (← ofName? helpers (p.field "helper")) (← temps "args")
  | "CreateBoundFunction" =>
    return .closure (← callable? (p.field "callable")) (← temp "scopes")
      (← Value.bool? (p.field "is_arrow"))
  | "NewUserClass" => return .newClass (← text "class") (← temps "args")
  | "NewIntrinsic" => return .newIntrinsic (← text "intrinsic") (← temps "args")
  | "NewFromValue" => return .newValue (← temp "constructor") (← temp "args_array")
  | _ => none

/-- The effect of that name. -/
def effect? (tag : String) (p : Value) : Option Effect := do
  let temp (name : String) : Option Temp := temp? (p.field name)
  let text (name : String) : Option String := Value.text? (p.field name)
  let fieldRef : Option FieldRef := fieldRef? (p.field "field")
  match tag with
  | "StoreSlot" => return .storeSlot (← slot? (p.field "slot")) (← temp "value")
  | "StoreArgument" => return .storeArgument (← Value.nat? (p.field "index")) (← temp "value")
  | "CreateLeafScope" => return .createLeaf (← text "scope")
  | "StoreLeafScopeField" => return .storeLeafField (← fieldRef) (← temp "value")
  | "StoreParentScopeField" =>
    return .storeParentField (← Value.nat? (p.field "index")) (← fieldRef) (← temp "value")
  | "StoreScopeField" =>
    return .storeScopeField (← temp "scope") (← fieldRef) (← temp "value")
  | "ArrayAdd" => return .appendItem (← temp "array") (← temp "value")
  | "ArrayAddRange" => return .appendAll (← temp "array") (← temp "iterable")
  | "SetProperty" => return .setProperty (← temp "object") (← text "name") (← temp "value")
  | "SetItem" => return .setItem (← temp "object") (← temp "key") (← temp "value")
  | "StoreUserClassInstanceField" =>
    return .storeField (← temp "receiver") (← text "class") (← text "field")
      (← Value.optional? type? (p.field "field_type")) (← temp "value")
  | "CallSuperConstructor" =>
    return .callSuper (← text "class") (← Value.list? temp? (p.field "args"))
  | _ => none

/-- An instruction. -/
def instr? (v : Value) : Option Instr := do
  let (tag, p) ← v.variant?
  let temp (name : String) : Option Temp := temp? (p.field name)
  let label (name : String) : Option Label := label? (p.field name)
  match tag with
  | "Label" => return .label (← label "label")
  | "Branch" => return .branch (← label "target")
  | "BranchIfTrue" => return .branchIf true (← temp "condition") (← label "target")
  | "BranchIfFalse" => return .branchIf false (← temp "condition") (← label "target")
  | "Leave" => return .leave (← label "target")
  | "EndFinally" => return .endFinally
  | "Return" => return .ret (← temp "value")
  | "Throw" => return .raise (← temp "value")
  | "ResumeDispatch" =>
    return .dispatch (← Value.list? stateLabel? (p.field "targets")) (← label "start")
  | "Suspend" =>
    return .suspend (← ofName? suspendKinds (p.field "kind")) (← temp "value")
      (← Value.nat? (p.field "resume_state")) (← label "resume_label") (← temp "result")
      (← Value.optional? reject? (p.field "reject"))
  | "AsyncReject" => return .asyncReject (← temp "reason")
  | _ => (do return .define (← temp "result") (← operation? tag p)) <|> .perform <$> effect? tag p

/-! ### Bodies -/

/-- A slot with its data. -/
def slotInfo? (v : Value) : Option SlotInfo := do
  return {
    name := ← Value.text? (v.field "name")
    storage := ← storage? (v.field "storage")
    binding := ← Value.optional? binding? (v.field "binding") }

/-- A protected region. -/
def region? (v : Value) : Option ExceptionRegion := do
  return {
    kind := ← ofName? regionKinds (v.field "kind")
    tryStart := ← label? (v.field "try_start")
    tryEnd := ← label? (v.field "try_end")
    handlerStart := ← label? (v.field "handler_start")
    handlerEnd := ← label? (v.field "handler_end")
    catchType := ← Value.optional? Value.text? (v.field "catch_type") }

/-- A resume point. -/
def resumePoint? (v : Value) : Option ResumePoint := do
  return {
    state := ← Value.nat? (v.field "resume_state")
    label := ← label? (v.field "resume_label")
    result := ← Value.optional? temp? (v.field "result")
    kind := ← ofName? resumeKinds (v.field "kind") }

/-- The shared exit. -/
def epilogue? (v : Value) : Option ReturnEpilogue :=
  return ⟨← label? (v.field "label"), ← slot? (v.field "slot")⟩

/-- A body in exchange form. -/
def body? (v : Value) : Option Body := do
  return {
    name := ← Value.text? (v.field "name")
    isAsync := ← Value.bool? (v.field "is_async")
    isGenerator := ← Value.bool? (v.field "is_generator")
    code := ← Value.list? instr? (v.field "instructions")
    temps := (← Value.list? (Value.optional? storage?) (v.field "temps")).toArray
    slots := (← Value.list? slotInfo? (v.field "slots")).toArray
    singleAssignment := Slot.sortedSet (← Value.list? slot? (v.field "single_assignment_slots"))
    labelCount := ← Value.natOrZero? (v.field "label_count")
    regions := ← Value.list? region? (v.field "exception_regions")
    resumePoints := ← Value.list? resumePoint? (v.field "resume_points")
    stateFields := ← Value.list? Value.text? (v.field "state_fields")
    epilogue := ← Value.optional? epilogue? (v.field "return_epilogue") }

end ScriptLowering.Exchange
