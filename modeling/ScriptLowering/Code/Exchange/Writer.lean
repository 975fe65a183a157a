import ScriptLowering.Code.Exchange.Names
import ScriptLowering.Number.Shortest

/-!
# Writing the exchange form

A body as a JSON value: every table and every instruction with all its operands, each under its
name. An instruction is a variant named for what it does. The value of a number constant is written
as text, since not every double is an integer.
-/

namespace ScriptLowering.Exchange

open Json (Value)

/-- A variant with its fields. -/
def variant (tag : String) (fields : List (String × Value)) : Value :=
  Value.tagged tag (.object fields)

/-! ### Identifiers and storage -/

/-- A temp is its number. -/
def ofTemp (t : Temp) : Value := Value.ofNat t.index

/-- A slot is its number. -/
def ofSlot (s : Slot) : Value := Value.ofNat s.index

/-- A label is its number. -/
def ofLabel (l : Label) : Value := Value.ofNat l.index

/-- A binding is its number. -/
def ofBinding (b : BindingId) : Value := Value.ofNat b.index

/-- A callable is its name. -/
def ofCallable (c : Callable) : Value := .string c.name

/-- A list of temps. -/
def ofTemps : List Temp → Value := Value.ofList ofTemp

/-- A field of a capture object. -/
def ofFieldRef (f : FieldRef) : Value :=
  .object [("scope", .string f.scope), ("name", .string f.name)]

/-- A type. -/
def ofType : ValueType → Value
  | .scope name => .object [("Scope", .string name)]
  | .userClass name => .object [("UserClass", .string name)]
  | ty => toName plainTypes ty

/-- A storage descriptor. -/
def ofStorage (s : Storage) : Value :=
  .object [("kind", toName representations s.kind), ("ty", ofType s.ty)]

/-! ### Instructions -/

/-- An element of a scope chain. -/
def ofScopeSource : ScopeSource → Value
  | .leaf => .string "Leaf"
  | .received index => .object [("ScopesArgument", Value.ofNat index)]
  | .temp t => .object [("Temp", ofTemp t)]

/-- An entry of a dispatch table. -/
def ofStateLabel (s : StateLabel) : Value :=
  .object [("state", Value.ofNat s.state), ("label", ofLabel s.label)]

/-- Where a rejection continues. -/
def ofReject (r : RejectRoute) : Value :=
  .object [("resume_state", Value.ofNat r.state), ("pending_exception", ofFieldRef r.pending)]

/-- The tag and the fields of an operation, the result apart. -/
def ofOperation : Operation → String × List (String × Value)
  | .literal (.number value) => ("ConstNumber", [("value", .string value.text)])
  | .literal (.string value) => ("ConstString", [("value", .string value)])
  | .literal (.bool value) => ("ConstBool", [("value", .bool value)])
  | .literal .null => ("ConstNull", [])
  | .literal .undefined => ("ConstUndefined", [])
  | .copy source => ("CopyTemp", [("source", ofTemp source)])
  | .loadSlot slot => ("LoadSlot", [("slot", ofSlot slot)])
  | .loadArgument index => ("LoadArgument", [("index", Value.ofNat index)])
  | .loadThis => ("LoadThis", [])
  | .loadException => ("LoadException", [])
  | .newScope scope => ("CreateScopeInstance", [("scope", .string scope)])
  | .loadLeafField f => ("LoadLeafScopeField", [("field", ofFieldRef f)])
  | .loadParentField index f =>
    ("LoadParentScopeField", [("index", Value.ofNat index), ("field", ofFieldRef f)])
  | .loadScopeField scope f =>
    ("LoadScopeField", [("scope", ofTemp scope), ("field", ofFieldRef f)])
  | .buildScopes sources => ("BuildScopesArray", [("slots", Value.ofList ofScopeSource sources)])
  | .coerce .toObject source => ("ConvertToObject", [("source", ofTemp source)])
  | .coerce .toNumber source => ("ConvertToNumber", [("source", ofTemp source)])
  | .coerce .toBoolean source => ("ConvertToBoolean", [("source", ofTemp source)])
  | .coerce .truthiness source => ("IsTruthy", [("source", ofTemp source)])
  | .coerce .toText source => ("ConvertToString", [("source", ofTemp source)])
  | .typeOf value => ("TypeOf", [("value", ofTemp value)])
  | .isNullish value => ("IsNullOrUndefined", [("value", ofTemp value)])
  | .isUndefined value => ("IsUndefined", [("value", ofTemp value)])
  | .isInstance value className =>
    ("IsInstanceOf", [("value", ofTemp value), ("class", .string className)])
  | .numeric op left right =>
    ("BinaryNumber",
      [("op", toName numericOps op), ("left", ofTemp left), ("right", ofTemp right)])
  | .compare op left right =>
    ("CompareNumber",
      [("op", toName compareOps op), ("left", ofTemp left), ("right", ofTemp right)])
  | .numericUnary op operand =>
    ("UnaryNumber", [("op", toName numericUnaryOps op), ("operand", ofTemp operand)])
  | .not operand => ("NotBool", [("operand", ofTemp operand)])
  | .concat left right => ("ConcatStrings", [("left", ofTemp left), ("right", ofTemp right)])
  | .add left right => ("AddDynamic", [("left", ofTemp left), ("right", ofTemp right)])
  | .addToNumber left right => ("AddAndToNumber", [("left", ofTemp left), ("right", ofTemp right)])
  | .dynamic op left right =>
    ("BinaryDynamic",
      [("op", toName dynamicOps op), ("left", ofTemp left), ("right", ofTemp right)])
  | .newError kind message =>
    ("NewBuiltInError", [("kind", toName errorKinds kind), ("message", .string message)])
  | .newArray elements => ("NewJsArray", [("elements", ofTemps elements)])
  | .packArguments elements => ("BuildArray", [("elements", ofTemps elements)])
  | .newObject properties =>
    ("NewJsObject",
      [("properties", Value.ofList (fun (name, t) => .array [.string name, ofTemp t]) properties)])
  | .getProperty object name => ("GetProperty", [("object", ofTemp object), ("name", .string name)])
  | .getItem object key => ("GetItem", [("object", ofTemp object), ("key", ofTemp key)])
  | .getLength object => ("GetLength", [("object", ofTemp object)])
  | .getElement array index =>
    ("GetArrayElement", [("array", ofTemp array), ("index", ofTemp index)])
  | .loadField receiver className name =>
    ("LoadUserClassInstanceField",
      [("receiver", ofTemp receiver), ("class", .string className), ("field", .string name)])
  | .normalizeIterable source => ("NormalizeIterable", [("source", ofTemp source)])
  | .globalValue name => ("GetIntrinsicGlobal", [("name", .string name)])
  | .classValue className => ("GetUserClassType", [("class", .string className)])
  | .callFunction callable scopes args =>
    ("CallFunction",
      [("callable", ofCallable callable), ("scopes", ofTemp scopes), ("args", ofTemps args)])
  | .callValue function scopes args =>
    ("CallFunctionValue",
      [("function", ofTemp function), ("scopes", ofTemp scopes), ("args", ofTemps args)])
  | .callValuePacked function scopes packed =>
    ("CallFunctionValueWithArray",
      [("function", ofTemp function), ("scopes", ofTemp scopes), ("args_array", ofTemp packed)])
  | .callMethodValue function receiver scopes packed =>
    ("CallMethodValue",
      [("function", ofTemp function), ("receiver", ofTemp receiver), ("scopes", ofTemp scopes),
        ("args_array", ofTemp packed)])
  | .callMember receiver name packed =>
    ("CallMember",
      [("receiver", ofTemp receiver), ("name", .string name), ("args_array", ofTemp packed)])
  | .callMemberFixed receiver name args =>
    ("CallMemberFixed",
      [("receiver", ofTemp receiver), ("name", .string name), ("args", ofTemps args)])
  | .callTyped guarded className name callable receiver args =>
    (if guarded then "CallTypedMemberWithFallback" else "CallTypedMember",
      [("class", .string className), ("name", .string name), ("callable", ofCallable callable),
        ("receiver", ofTemp receiver), ("args", ofTemps args)])
  | .callStatic className name callable args =>
    ("CallUserClassStaticMethod",
      [("class", .string className), ("name", .string name), ("callable", ofCallable callable),
        ("args", ofTemps args)])
  | .callGlobal name args =>
    ("CallIntrinsicGlobal", [("name", .string name), ("args", ofTemps args)])
  | .callIntrinsicMember intrinsic method args =>
    ("CallIntrinsicMember",
      [("intrinsic", .string intrinsic), ("method", .string method), ("args", ofTemps args)])
  | .callRuntime helper args =>
    ("CallRuntime", [("helper", toName helpers helper), ("args", ofTemps args)])
  | .closure callable scopes isArrow =>
    ("CreateBoundFunction",
      [("callable", ofCallable callable), ("scopes", ofTemp scopes), ("is_arrow", .bool isArrow)])
  | .newClass className args =>
    ("NewUserClass", [("class", .string className), ("args", ofTemps args)])
  | .newIntrinsic intrinsic args =>
    ("NewIntrinsic", [("intrinsic", .string intrinsic), ("args", ofTemps args)])
  | .newValue constructor packed =>
    ("NewFromValue", [("constructor", ofTemp constructor), ("args_array", ofTemp packed)])

/-- The tag and the fields of an effect. -/
def ofEffect : Effect → String × List (String × Value)
  | .storeSlot slot value => ("StoreSlot", [("slot", ofSlot slot), ("value", ofTemp value)])
  | .storeArgument index value =>
    ("StoreArgument", [("index", Value.ofNat index), ("value", ofTemp value)])
  | .createLeaf scope => ("CreateLeafScope", [("scope", .string scope)])
  | .storeLeafField f value =>
    ("StoreLeafScopeField", [("field", ofFieldRef f), ("value", ofTemp value)])
  | .storeParentField index f value =>
    ("StoreParentScopeField",
      [("index", Value.ofNat index), ("field", ofFieldRef f), ("value", ofTemp value)])
  | .storeScopeField scope f value =>
    ("StoreScopeField", [("scope", ofTemp scope), ("field", ofFieldRef f), ("value", ofTemp value)])
  | .appendItem array value => ("ArrayAdd", [("array", ofTemp array), ("value", ofTemp value)])
  | .appendAll array iterable =>
    ("ArrayAddRange", [("array", ofTemp array), ("iterable", ofTemp iterable)])
  | .setProperty object name value =>
    ("SetProperty", [("object", ofTemp object), ("name", .string name), ("value", ofTemp value)])
  | .setItem object key value =>
    ("SetItem", [("object", ofTemp object), ("key", ofTemp key), ("value", ofTemp value)])
  | .storeField receiver className name ty value =>
    ("StoreUserClassInstanceField",
      [("receiver", ofTemp receiver), ("class", .string className), ("field", .string name),
        ("field_type", Value.ofOption ofType ty), ("value", ofTemp value)])
  | .callSuper className args =>
    ("CallSuperConstructor", [("class", .string className), ("args", ofTemps args)])

/-- An instruction. -/
def ofInstr : Instr → Value
  | .define result op =>
    let (tag, fields) := ofOperation op
    variant tag (("result", ofTemp result) :: fields)
  | .perform effect =>
    let (tag, fields) := ofEffect effect
    variant tag fields
  | .label l => variant "Label" [("label", ofLabel l)]
  | .branch target => variant "Branch" [("target", ofLabel target)]
  | .branchIf expected condition target =>
    variant (if expected then "BranchIfTrue" else "BranchIfFalse")
      [("condition", ofTemp condition), ("target", ofLabel target)]
  | .leave target => variant "Leave" [("target", ofLabel target)]
  | .endFinally => .string "EndFinally"
  | .ret value => variant "Return" [("value", ofTemp value)]
  | .raise value => variant "Throw" [("value", ofTemp value)]
  | .dispatch targets start =>
    variant "ResumeDispatch"
      [("targets", Value.ofList ofStateLabel targets), ("start", ofLabel start)]
  | .suspend kind value state label result reject =>
    variant "Suspend"
      [("kind", toName suspendKinds kind), ("value", ofTemp value),
        ("resume_state", Value.ofNat state), ("resume_label", ofLabel label),
        ("result", ofTemp result), ("reject", Value.ofOption ofReject reject)]
  | .asyncReject reason => variant "AsyncReject" [("reason", ofTemp reason)]

/-! ### Bodies -/

/-- A slot. -/
def ofSlotInfo (s : SlotInfo) : Value :=
  .object [("name", .string s.name), ("storage", ofStorage s.storage),
    ("binding", Value.ofOption ofBinding s.binding)]

/-- A protected region. -/
def ofRegion (r : ExceptionRegion) : Value :=
  .object [("kind", toName regionKinds r.kind), ("try_start", ofLabel r.tryStart),
    ("try_end", ofLabel r.tryEnd), ("handler_start", ofLabel r.handlerStart),
    ("handler_end", ofLabel r.handlerEnd),
    ("catch_type", Value.ofOption Value.string r.catchType)]

/-- A resume point. -/
def ofResumePoint (p : ResumePoint) : Value :=
  .object [("resume_state", Value.ofNat p.state), ("resume_label", ofLabel p.label),
    ("result", Value.ofOption ofTemp p.result), ("kind", toName resumeKinds p.kind)]

/-- The shared exit. -/
def ofEpilogue (e : ReturnEpilogue) : Value :=
  .object [("label", ofLabel e.label), ("slot", ofSlot e.slot)]

/-- A body in exchange form. -/
def ofBody (b : Body) : Value :=
  .object [("name", .string b.name), ("is_async", .bool b.isAsync),
    ("is_generator", .bool b.isGenerator), ("instructions", Value.ofList ofInstr b.code),
    ("temps", Value.ofList (Value.ofOption ofStorage) b.temps.toList),
    ("slots", Value.ofList ofSlotInfo b.slots.toList),
    ("single_assignment_slots", Value.ofList ofSlot b.singleAssignment),
    ("label_count", Value.ofNat b.labelCount),
    ("exception_regions", Value.ofList ofRegion b.regions),
    ("resume_points", Value.ofList ofResumePoint b.resumePoints),
    ("state_fields", Value.ofList Value.string b.stateFields),
    ("return_epilogue", Value.ofOption ofEpilogue b.epilogue)]

end ScriptLowering.Exchange
