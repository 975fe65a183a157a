import ScriptLowering.Code.Body
import ScriptLowering.Number.Shortest
import ScriptLowering.Text.Quoted

/-!
# Listings

The text of instructions and bodies. An instruction that defines a temp shows the temp, an equals
sign and the operation. A listing opens with the kind and name of the function and its slots,
indents everything but labels, and closes with the protected regions.
-/

namespace ScriptLowering

/-- The mnemonic of an arithmetic operator. -/
def NumericOp.mnemonic : NumericOp → String
  | .add => "add.num"
  | .sub => "sub.num"
  | .mul => "mul.num"
  | .div => "div.num"
  | .mod => "mod.num"
  | .exp => "exp.num"
  | .bitAnd => "and.num"
  | .bitOr => "or.num"
  | .bitXor => "xor.num"
  | .shl => "shl.num"
  | .shr => "shr.num"
  | .ushr => "ushr.num"

/-- The mnemonic of a numeric comparison. -/
def CompareOp.mnemonic : CompareOp → String
  | .lt => "lt.num"
  | .le => "le.num"
  | .gt => "gt.num"
  | .ge => "ge.num"
  | .eq => "eq.num"
  | .ne => "ne.num"

/-- The mnemonic of a dynamic operator. -/
def DynamicOp.mnemonic : DynamicOp → String
  | .looseEq => "eq.dyn"
  | .looseNe => "ne.dyn"
  | .strictEq => "seq.dyn"
  | .strictNe => "sne.dyn"
  | .lt => "lt.dyn"
  | .le => "le.dyn"
  | .gt => "gt.dyn"
  | .ge => "ge.dyn"
  | .instanceOf => "instanceof.dyn"
  | .memberIn => "in.dyn"

/-- The mnemonic of a unary arithmetic operator. -/
def NumericUnaryOp.mnemonic : NumericUnaryOp → String
  | .neg => "neg.num"
  | .bitNot => "bitnot.num"

/-- The mnemonic of a change of representation. -/
def Coercion.mnemonic : Coercion → String
  | .toObject => "to.object"
  | .toNumber => "to.number"
  | .toBoolean => "to.bool"
  | .truthiness => "truthy"
  | .toText => "to.string"

/-- The name of a built-in error. -/
def ErrorKind.name : ErrorKind → String
  | .typeError => "TypeError"
  | .referenceError => "ReferenceError"

/-- The name of a runtime service. -/
def RuntimeHelper.name : RuntimeHelper → String
  | .getIterator => "GetIterator"
  | .iteratorNext => "IteratorNext"
  | .iteratorResultDone => "IteratorResultDone"
  | .iteratorResultValue => "IteratorResultValue"
  | .iteratorClose => "IteratorClose"
  | .enumerateKeys => "EnumerateKeys"
  | .objectRest => "ObjectRest"
  | .objectAssign => "ObjectAssign"

/-- The verb of a suspension. -/
def SuspendKind.verb : SuspendKind → String
  | .await => "await"
  | .yield => "yield"

/-- A constant as it stands in a listing. -/
def Literal.text : Literal → String
  | .number value => value.text
  | .string value => Text.quote value
  | .bool value => if value then "true" else "false"
  | .null => "null"
  | .undefined => "undefined"

/-- An element of a scope-chain array. -/
def ScopeSource.text : ScopeSource → String
  | .leaf => "leaf"
  | .received index => "arg" ++ toString index
  | .temp t => t.text

/-- Texts with a comma and a blank between them. -/
def commaSeparated (parts : List String) : String :=
  ", ".intercalate parts

/-- Temps with commas between them. -/
def Temp.listText (ts : List Temp) : String :=
  commaSeparated (ts.map Temp.text)

/-- A mnemonic in front of two operands. -/
def binaryText (mnemonic : String) (left right : Temp) : String :=
  mnemonic ++ " " ++ left.text ++ ", " ++ right.text

/-- A callee in front of its parenthesized arguments. -/
def applied (callee : String) (args : List Temp) : String :=
  callee ++ "(" ++ Temp.listText args ++ ")"

/-- A callee in front of an argument array. -/
def appliedPacked (callee : String) (packed : Temp) : String :=
  callee ++ "(..." ++ packed.text ++ ")"

/-- An operation as it stands behind the equals sign. -/
def Operation.text : Operation → String
  | .literal value => "const " ++ value.text
  | .copy source => "copy " ++ source.text
  | .loadSlot slot => "load " ++ slot.text
  | .loadArgument index => "ldarg " ++ toString index
  | .loadThis => "this"
  | .loadException => "exception"
  | .newScope scope => "newscope " ++ scope
  | .loadLeafField field => "ldleaf " ++ field.text
  | .loadParentField index field => "ldparent[" ++ toString index ++ "] " ++ field.text
  | .loadScopeField scope field => "ldscope " ++ scope.text ++ "." ++ field.text
  | .buildScopes sources => "scopes [" ++ commaSeparated (sources.map ScopeSource.text) ++ "]"
  | .coerce kind source => kind.mnemonic ++ " " ++ source.text
  | .typeOf value => "typeof " ++ value.text
  | .isNullish value => "isnullish " ++ value.text
  | .isUndefined value => "isundef " ++ value.text
  | .isInstance value className => "isinstance " ++ value.text ++ ", " ++ className
  | .numeric op left right => binaryText op.mnemonic left right
  | .compare op left right => binaryText op.mnemonic left right
  | .numericUnary op operand => op.mnemonic ++ " " ++ operand.text
  | .not operand => "not " ++ operand.text
  | .concat left right => binaryText "concat" left right
  | .add left right => binaryText "add.dyn" left right
  | .addToNumber left right => binaryText "add.tonum" left right
  | .dynamic op left right => binaryText op.mnemonic left right
  | .newError kind message => "error " ++ kind.name ++ " " ++ Text.quote message
  | .newArray elements => "newarray [" ++ Temp.listText elements ++ "]"
  | .packArguments elements => "args [" ++ Temp.listText elements ++ "]"
  | .newObject properties =>
    let members := properties.map fun (name, t) => name ++ ": " ++ t.text
    "newobject \x7b" ++ commaSeparated members ++ "\x7d"
  | .getProperty object name => "getprop " ++ object.text ++ "." ++ name
  | .getItem object key => "getitem " ++ object.text ++ "[" ++ key.text ++ "]"
  | .getLength object => "length " ++ object.text
  | .getElement array index => "getelem " ++ array.text ++ "[" ++ index.text ++ "]"
  | .loadField receiver className field =>
    "ldfld " ++ receiver.text ++ "." ++ className ++ "::" ++ field
  | .normalizeIterable source => "normalize.iter " ++ source.text
  | .globalValue name => "global " ++ name
  | .classValue className => "classtype " ++ className
  | .callFunction callable scopes args =>
    applied ("call " ++ callable.text) args ++ " scopes " ++ scopes.text
  | .callValue function scopes args =>
    applied ("call.value " ++ function.text) args ++ " scopes " ++ scopes.text
  | .callValuePacked function scopes packed =>
    appliedPacked ("call.value " ++ function.text) packed ++ " scopes " ++ scopes.text
  | .callMethodValue function receiver scopes packed =>
    appliedPacked ("call.method " ++ function.text) packed ++ " this " ++ receiver.text
      ++ " scopes " ++ scopes.text
  | .callMember receiver name packed =>
    appliedPacked ("call.member " ++ receiver.text ++ "." ++ name) packed
  | .callMemberFixed receiver name args =>
    applied ("call.member " ++ receiver.text ++ "." ++ name) args
  | .callTyped guarded className name _ receiver args =>
    let verb := if guarded then "call.typed.fallback " else "call.typed "
    applied (verb ++ className ++ "::" ++ name ++ " " ++ receiver.text) args
  | .callStatic className name _ args => applied ("call.static " ++ className ++ "::" ++ name) args
  | .callGlobal name args => applied ("call.global " ++ name) args
  | .callIntrinsicMember intrinsic method args =>
    applied ("call.intrinsic " ++ intrinsic ++ "." ++ method) args
  | .callRuntime helper args => applied ("call.runtime " ++ helper.name) args
  | .closure callable scopes isArrow =>
    (if isArrow then "arrow " else "closure ") ++ callable.text ++ " scopes " ++ scopes.text
  | .newClass className args => applied ("new " ++ className) args
  | .newIntrinsic intrinsic args => applied ("new.intrinsic " ++ intrinsic) args
  | .newValue callee packed => appliedPacked ("new.value " ++ callee.text) packed

/-- The text of an effect. -/
def Effect.text : Effect → String
  | .storeSlot slot value => "store " ++ slot.text ++ ", " ++ value.text
  | .storeArgument index value => "starg " ++ toString index ++ ", " ++ value.text
  | .createLeaf scope => "leafscope " ++ scope
  | .storeLeafField field value => "stleaf " ++ field.text ++ ", " ++ value.text
  | .storeParentField index field value =>
    "stparent[" ++ toString index ++ "] " ++ field.text ++ ", " ++ value.text
  | .storeScopeField scope field value =>
    "stscope " ++ scope.text ++ "." ++ field.text ++ ", " ++ value.text
  | .appendItem array value => binaryText "array.add" array value
  | .appendAll array iterable => binaryText "array.addrange" array iterable
  | .setProperty object name value => "setprop " ++ object.text ++ "." ++ name ++ ", " ++ value.text
  | .setItem object key value =>
    "setitem " ++ object.text ++ "[" ++ key.text ++ "], " ++ value.text
  | .storeField receiver className field ty value =>
    "stfld " ++ receiver.text ++ "." ++ className ++ "::" ++ field ++ ", " ++ value.text
      ++ (match ty with
        | none => ""
        | some ty => " : " ++ ty.text)
  | .callSuper className args => applied ("call.super " ++ className) args

/-- The text of an instruction. -/
def Instr.text : Instr → String
  | .define result op => result.text ++ " = " ++ op.text
  | .perform effect => effect.text
  | .label l => l.text ++ ":"
  | .branch target => "br " ++ target.text
  | .branchIf expected condition target =>
    (if expected then "brtrue " else "brfalse ") ++ condition.text ++ ", " ++ target.text
  | .leave target => "leave " ++ target.text
  | .endFinally => "endfinally"
  | .ret value => "ret " ++ value.text
  | .raise value => "throw " ++ value.text
  | .dispatch targets start =>
    let entries := targets.map fun entry => toString entry.state ++ " -> " ++ entry.label.text
    "dispatch [" ++ commaSeparated entries ++ "] else " ++ start.text
  | .suspend kind value state resume result reject =>
    result.text ++ " = " ++ kind.verb ++ " " ++ value.text ++ " state " ++ toString state ++ " -> "
      ++ resume.text
      ++ (match reject with
        | none => ""
        | some route => " reject " ++ toString route.state ++ " via " ++ route.pending.text)
  | .asyncReject reason => "reject " ++ reason.text

/-- An instruction as a line of a listing. -/
def Instr.line (instr : Instr) : String :=
  match instr with
  | .label _ => instr.text ++ "\n"
  | _ => "  " ++ instr.text ++ "\n"

/-- A protected region as a line of a listing. -/
def ExceptionRegion.line (r : ExceptionRegion) : String :=
  let kind := match r.kind with
    | .catchHandler => "catch"
    | .finallyHandler => "finally"
  "  ; " ++ kind ++ " region " ++ r.tryStart.text ++ ".." ++ r.tryEnd.text ++ " handler "
    ++ r.handlerStart.text ++ ".." ++ r.handlerEnd.text ++ "\n"

namespace Body

/-- The words in front of `fn`. -/
def flavor (b : Body) : String :=
  match b.isAsync, b.isGenerator with
  | true, true => "async generator "
  | true, false => "async "
  | false, true => "generator "
  | false, false => ""

/-- The line about the slots; a body without slots has none. -/
def slotLine (b : Body) : String :=
  if b.slots.isEmpty then ""
  else
    let entries := b.slots.toList.zipIdx.map fun (slot, index) =>
      (Slot.mk index).text ++ " " ++ slot.name ++ ": " ++ slot.storage.text
    "  ; slots: " ++ commaSeparated entries ++ "\n"

/-- The listing of a body. -/
def listing (b : Body) : String :=
  String.join
    ([b.flavor ++ "fn " ++ b.name ++ " \x7b\n", b.slotLine] ++ b.code.map Instr.line
      ++ b.regions.map ExceptionRegion.line ++ ["\x7d\n"])

end Body

end ScriptLowering
