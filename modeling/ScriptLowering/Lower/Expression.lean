import ScriptLowering.Lower.Suspension

/-!
# Expressions and patterns

The recursion over expressions and patterns. Each form evaluates its parts in source order and hands
them to the step that combines them; every expression yields one temp.

In a resumable function a temp does not survive a suspension, so a form that holds the value of one
part while it evaluates the next declines a later part that may suspend.
-/

namespace ScriptLowering

/-- The expression is an identifier. -/
def Expr.isIdent : Expr → Bool
  | .ident _ => true
  | _ => false

namespace Lower

/-- Whether storing into a binding initializes it or assigns to it. -/
inductive BindMode where
  | init
  | assign
deriving DecidableEq, Inhabited

/-- Stores into a binding. -/
def storeBinding (mode : BindMode) (id : BindingId) (value : Temp) : Lower Unit :=
  match mode with
  | .init => initBinding id value
  | .assign => assignBinding id value

/-! ### Destructuring -/

/-- The message about a value that cannot be destructured. -/
def destructureMessage (pattern : Pattern) : String :=
  match pattern.firstTarget? with
  | some name => "Cannot destructure property '" ++ name ++ "' of null or undefined."
  | none => "Cannot destructure null or undefined."

/-- Starts the destructuring of a value: throws if it is null or undefined. No part of the pattern
may suspend, because the value is held throughout. -/
def openPattern (pattern : Pattern) (value : Temp) : Lower Temp := do
  if (← read).isResumable && pattern.suspends then decline .suspendInPattern
  else
    let source ← asObject value
    let valid ← freshLabel
    let nullish ← define .bool (.isNullish source)
    branchIf false nullish valid
    throwBuiltInError .typeError (destructureMessage pattern)
    place valid
    return source

/-- The string constants for the keys. -/
def keyConstants (keys : List String) : Lower (List Temp) :=
  keys.mapM string

/-- The properties of an object that an object pattern does not name. -/
def objectRest (source : Temp) (keys : List String) : Lower Temp := do
  let excluded ← define .array (.newArray (← keyConstants keys))
  define .object (.callRuntime .objectRest [source, excluded])

/-- The item of an array pattern at a position. -/
def patternItem (source : Temp) (position : Nat) : Lower Temp := do
  let key ← asObject (← number (.ofNat position))
  define .object (.getItem source key)

/-- The items of an array from a position on. -/
def arrayRest (source : Temp) (start : Nat) : Lower Temp := do
  let start ← asObject (← number (.ofNat start))
  define .object (.callMemberFixed source "slice" [start])

/-! ### The recursion -/

mutual

/-- Lowers an expression. -/
def lowerExpr : Expr → Lower Temp
  | .number value => number value
  | .string value => string value
  | .bool value => bool value
  | .null => null
  | .undefined => undefined
  | .ident binding => loadBinding binding
  | .intrinsic name => define .object (.globalValue name)
  | .classRef name => define .object (.classValue name)
  | .this => thisValue
  | .array elements => do
    forbidSuspend ((elements.flatMap Element.operands).drop 1)
    lowerElements [] elements
  | .object members => do
    forbidSuspend ((members.flatMap Member.operands).drop 1)
    lowerMembers [] members
  | .template texts holes => do
    let startsWithText := texts.head?.any fun text => !text.isEmpty
    forbidSuspend (holes.drop (if startsWithText then 0 else 1))
    match ← lowerTemplate none holes texts with
    | some joined => return joined
    | none => string ""
  | .unary op operand => unary op (lowerExpr operand)
  | .binary op left right => do
    forbidSuspend [right]
    binary op (lowerExpr left) (lowerExpr right)
  | .logical op left right => logical op (lowerExpr left) (lowerExpr right)
  | .conditional test consequent alternate =>
    conditional (lowerExpr test) (lowerExpr consequent) (lowerExpr alternate)
  | .assign (.binding binding) value => do
    let value ← lowerExpr value
    assignBinding binding value
    return value
  | .assign (.target expr) value => do
    if !expr.isIdent then forbidSuspend [value]
    let target ← resolveTarget expr
    let value ← lowerExpr value
    writeTarget target value
    return value
  | .assign pattern value => do
    let value ← lowerExpr value
    bindPattern .assign pattern value
    return value
  | .compoundAssign op target value => do
    forbidSuspend [value]
    let target ← resolveTarget target
    let current ← readTarget target
    let operand ← lowerExpr value
    let result ← applyBinary op current operand
    writeTarget target result
    return result
  | .update op inFront target => do
    update op inFront (← resolveTarget target)
  | .member base name optional => do
    let object ← lowerExpr base
    if optional then optionally object (getProperty object name) else getProperty object name
  | .index base key optional => do
    forbidSuspend [key]
    let object ← lowerExpr base
    let access : Lower Temp := do
      getItem object (← lowerExpr key)
    if optional then optionally object access else access
  | .call (.member base name false) args true =>
    optionalMethodCall name (lowerExpr base)
      (arguments args true fun array => lowerArgs array args)
  | .call (.member base name false) args false =>
    memberCall base name args (lowerExpr base) fun array => lowerArgs array args
  | .call callee args true =>
    optionalCall (lowerExpr callee) (arguments args true fun array => lowerArgs array args)
  | .call callee args false =>
    plainCall callee args (lowerExpr callee) fun array => lowerArgs array args
  | .superCall args => superCall args fun array => lowerArgs array args
  | .newClass className args => newClass className args fun array => lowerArgs array args
  | .newIntrinsic name args => newIntrinsic name args fun array => lowerArgs array args
  | .newValue callee args =>
    newValue (lowerExpr callee) (arguments args true fun array => lowerArgs array args)
  | .function ref => closure ref
  | .sequence exprs => lowerSequence none exprs
  | .await operand => await (lowerExpr operand)
  | .yield operand delegates =>
    yieldExpr (match operand with
      | none => undefined
      | some operand => lowerExpr operand) delegates

/-- Lowers the parts of an assignment target. -/
def resolveTarget : Expr → Lower Target
  | .ident binding => pure (.binding binding)
  | .member base name false => do
    let object ← lowerExpr base
    return .property object name
  | .index base key false => do
    forbidSuspend [key]
    let object ← lowerExpr base
    let key ← lowerExpr key
    return .item object key
  | _ => decline .invalidTarget

/-- Lowers expressions in turn and yields the value of the last one. -/
def lowerSequence : Option Temp → List Expr → Lower Temp
  | none, [] => undefined
  | some last, [] => pure last
  | _, expr :: rest => do
    let value ← lowerExpr expr
    lowerSequence (some value) rest

/-- Lowers the parts of a template literal behind those concatenated so far. A hole without a text
in front of it is not reached. -/
def lowerTemplate : Option Temp → List Expr → List String → Lower (Option Temp)
  | before, [], texts => concatConstants before texts
  | before, _ :: _, [] => pure before
  | before, hole :: holes, text :: texts => do
    let before ← concatConstant before text
    let part ← asText (← lowerExpr hole)
    let joined ← concatText before part
    lowerTemplate (some joined) holes texts

/-- Lowers the elements of an array literal. Those in front of the first spread are collected and
start the array. -/
def lowerElements : List Temp → List Element → Lower Temp
  | leading, [] => define .array (.newArray leading)
  | leading, .item value :: rest => do
    let value ← asObject (← lowerExpr value)
    lowerElements (leading ++ [value]) rest
  | leading, .hole :: rest => do
    let value ← asObject (← undefined)
    lowerElements (leading ++ [value]) rest
  | leading, .spread value :: rest => do
    let array ← define .array (.newArray leading)
    let iterable ← asObject (← lowerExpr value)
    perform (.appendAll array iterable)
    appendElements array rest
    return array

/-- Appends the remaining elements to an array. -/
def appendElements (array : Temp) : List Element → Lower Unit
  | [] => pure ()
  | .item value :: rest => do
    let value ← asObject (← lowerExpr value)
    perform (.appendItem array value)
    appendElements array rest
  | .spread value :: rest => do
    let iterable ← asObject (← lowerExpr value)
    perform (.appendAll array iterable)
    appendElements array rest
  | .hole :: rest => do
    let value ← undefined
    perform (.appendItem array value)
    appendElements array rest

/-- Lowers the members of an object literal. The named ones in front of all others are collected and
start the object. -/
def lowerMembers : List (String × Temp) → List Member → Lower Temp
  | leading, [] => define .object (.newObject leading)
  | leading, .named name value :: rest => do
    let value ← asObject (← lowerExpr value)
    lowerMembers (leading ++ [(name, value)]) rest
  | leading, .computed key value :: rest => do
    let object ← define .object (.newObject leading)
    let key ← asObject (← lowerExpr key)
    let value ← asObject (← lowerExpr value)
    perform (.setItem object key value)
    addMembers object rest
    return object
  | leading, .spread value :: rest => do
    let object ← define .object (.newObject leading)
    let source ← asObject (← lowerExpr value)
    let _ ← define .object (.callRuntime .objectAssign [object, source])
    addMembers object rest
    return object

/-- Adds the remaining members to an object. -/
def addMembers (object : Temp) : List Member → Lower Unit
  | [] => pure ()
  | .named name value :: rest => do
    let value ← asObject (← lowerExpr value)
    perform (.setProperty object name value)
    addMembers object rest
  | .computed key value :: rest => do
    let key ← asObject (← lowerExpr key)
    let value ← asObject (← lowerExpr value)
    perform (.setItem object key value)
    addMembers object rest
  | .spread value :: rest => do
    let source ← asObject (← lowerExpr value)
    let _ ← define .object (.callRuntime .objectAssign [object, source])
    addMembers object rest

/-- Lowers arguments in order and appends each of them to the array, if one is given. -/
def lowerArgs (array : Option Temp) : List Argument → Lower (List Temp)
  | [] => pure []
  | .plain value :: rest => do
    let value ← asObject (← lowerExpr value)
    match array with
    | none => pure ()
    | some array => perform (.appendItem array value)
    return value :: (← lowerArgs array rest)
  | .spread value :: rest => do
    let value ← asObject (← lowerExpr value)
    match array with
    | none => pure ()
    | some array => perform (.appendAll array value)
    return value :: (← lowerArgs array rest)

/-- Binds a value to a pattern. -/
def bindPattern (mode : BindMode) : Pattern → Temp → Lower Unit
  | .binding binding, value => storeBinding mode binding value
  | .target expr, value => do
    let target ← resolveTarget expr
    writeTarget target value
  | .withDefault inner default, value => do
    forbidSuspend [default]
    let value ← valueOrDefault value (lowerExpr default)
    bindPattern mode inner value
  | .object properties rest, value => do
    let source ← openPattern (.object properties rest) value
    bindProperties mode source properties
    match rest with
    | none => pure ()
    | some rest => bindPattern mode rest (← objectRest source (properties.map (·.1)))
  | .array elements rest, value => do
    let source ← openPattern (.array elements rest) value
    bindElements mode source 0 elements
    match rest with
    | none => pure ()
    | some rest => bindPattern mode rest (← arrayRest source elements.length)

/-- Binds the properties of an object to the patterns that name them. -/
def bindProperties (mode : BindMode) (source : Temp) : List (String × Pattern) → Lower Unit
  | [] => pure ()
  | (key, inner) :: rest => do
    let value ← define .object (.getProperty source key)
    bindPattern mode inner value
    bindProperties mode source rest

/-- Binds the items of an array, from a position on, to the patterns at their positions. -/
def bindElements (mode : BindMode) (source : Temp) : Nat → List (Option Pattern) → Lower Unit
  | _, [] => pure ()
  | position, none :: rest => bindElements mode source (position + 1) rest
  | position, some inner :: rest => do
    let value ← patternItem source position
    bindPattern mode inner value
    bindElements mode source (position + 1) rest

end

end Lower

end ScriptLowering
