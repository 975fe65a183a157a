import ScriptLowering.Lower.Operator

/-!
# Calls

A call is bound as early as what is known allows: to a function declaration, to a global of the
runtime, to a static method or to a method of an instance of a known class. Everything else is a
call through a value or through a member that the runtime looks up.

The callee and the arguments are given as computations. Arguments with a spread are collected in an
array, others are passed one by one; `each` lowers them in order, appending each to the array if it
is given one.
-/

namespace ScriptLowering.Lower

/-- The arguments of a call. -/
inductive Arguments where
  /-- Plain arguments, each object-shaped. -/
  | fixed (values : List Temp)
  /-- An array, collected at run time. -/
  | collected (array : Temp)
deriving DecidableEq, Inhabited

/-- Lowers the arguments of a call. If an operand is held in a temp already, no argument may
suspend; otherwise the first one may. -/
def arguments (args : List Argument) (operandHeld : Bool) (each : Option Temp → Lower (List Temp)) :
    Lower Arguments := do
  forbidSuspend ((args.map Argument.expr).drop (if operandHeld then 0 else 1))
  if args.any Argument.isSpread then
    let array ← define .array (.newArray [])
    let _ ← each (some array)
    return .collected array
  else return .fixed (← each none)

/-- Lowers arguments that nothing is evaluated before; a spread is declined for the given reason. -/
def plainArguments (args : List Argument) (each : Option Temp → Lower (List Temp))
    (spread : Decline) : Lower (List Temp) := do
  if args.any Argument.isSpread then decline spread
  else
    forbidSuspend ((args.map Argument.expr).drop 1)
    each none

/-- The arguments as an array. -/
def packed : Arguments → Lower Temp
  | .collected array => pure array
  | .fixed values => define .array (.packArguments values)

/-- Emits a call whose result temp is allocated first: in the form of fixed arity for few plain
arguments, else in the form that takes an array. -/
def emitCall (args : Arguments) (fixed : List Temp → Operation) (withArray : Temp → Operation) :
    Lower Temp := do
  let result ← freshTemp .object
  let fixedArity := (← read).fixedArity
  match args with
  | .fixed values =>
    if values.length ≤ fixedArity then emit (.define result (fixed values))
    else emit (.define result (withArray (← packed args)))
  | .collected array => emit (.define result (withArray array))
  return result

/-- A call through a function value. -/
def callValue (function : Temp) (args : Arguments) : Lower Temp := do
  let function ← asObject function
  let scopes ← currentScopes
  emitCall args (.callValue function scopes) (.callValuePacked function scopes)

/-- A call of a method value, with the receiver it was read from. -/
def callMethodValue (function receiver : Temp) (args : Arguments) : Lower Temp := do
  let scopes ← currentScopes
  let array ← packed args
  define .object (.callMethodValue function receiver scopes array)

/-- The method that a member call is bound to: the receiver's class is known and has no subclasses
that could override the method. -/
def boundMethod? (receiver : Temp) (name : String) (arity : Nat) :
    Lower (Option (String × ClassInfo × MethodInfo)) := do
  let registry := (← read).registry
  match (← storageOf receiver).className? with
  | none => return none
  | some className =>
    if registry.hasSubclasses className then return none
    return (registry.instanceMethod? className name arity).map (className, ·)

/-- A member call that the runtime looks up. -/
def callDynamicMember (receiver : Temp) (name : String) (args : Arguments) : Lower Temp := do
  let receiver ← asObject receiver
  emitCall args (.callMemberFixed receiver name) (.callMember receiver name)

/-- A member call on an evaluated receiver. -/
def callMember (receiver : Temp) (name : String) (args : Arguments) : Lower Temp := do
  match args with
  | .collected _ => callDynamicMember receiver name args
  | .fixed values =>
    match ← boundMethod? receiver name values.length with
    | none => callDynamicMember receiver name args
    | some (className, declaring, method) =>
      let storage := if method.returnsThis then .reference (.userClass className) else .object
      define storage (.callTyped false declaring.name name method.callable receiver values)

/-- What a plain call of a member of `object` is bound to without evaluating the object. -/
def staticMember? (registry : Registry) (object : Expr) (name : String) (arity : Nat) :
    Option (List Temp → Operation) :=
  match object with
  | .intrinsic intrinsic => some (.callIntrinsicMember intrinsic name)
  | .classRef className =>
    (registry.staticMethod? className name arity).map fun method =>
      .callStatic className name method.callable
  | _ => none

/-- A call of a member of `object`, whose value is `receiver`. -/
def memberCall (object : Expr) (name : String) (args : List Argument) (receiver : Lower Temp)
    (each : Option Temp → Lower (List Temp)) : Lower Temp := do
  let registry := (← read).registry
  let bound := if args.any Argument.isSpread then none
    else staticMember? registry object name args.length
  match bound with
  | some operation =>
    forbidSuspend ((args.map Argument.expr).drop 1)
    define .object (operation (← each none))
  | none =>
    let receiver ← receiver
    let args ← arguments args true each
    callMember receiver name args

/-- What a plain call of `callee` is bound to: a function declaration that is never assigned to,
whose scope chain is built once the arguments are there, or a global of the runtime. -/
def knownCallee? (callee : Expr) : Lower (Option (List Temp → Lower Temp)) := do
  match callee with
  | .ident binding =>
    let b ← requireBinding binding
    match b.kind, b.callable, b.functionScope with
    | .function, some callable, some scope =>
      return some fun values => do
        let scopes ← calleeScopes scope
        define .object (.callFunction callable scopes values)
    | _, _, _ => return none
  | .intrinsic name => return some fun values => define .object (.callGlobal name values)
  | _ => return none

/-- A call of `callee`, whose value is `function`. -/
def plainCall (callee : Expr) (args : List Argument) (function : Lower Temp)
    (each : Option Temp → Lower (List Temp)) : Lower Temp := do
  let known ← knownCallee? callee
  match known, args.any Argument.isSpread with
  | some call, false =>
    forbidSuspend ((args.map Argument.expr).drop 1)
    call (← each none)
  | _, _ =>
    let function ← function
    let args ← arguments args true each
    callValue function args

/-- `object.name?.(args)`: the method is read once and the object stays its receiver. -/
def optionalMethodCall (name : String) (object : Lower Temp) (args : Lower Arguments) :
    Lower Temp := do
  let receiver ← asObject (← object)
  let method ← define .object (.getProperty receiver name)
  optionally method do
    callMethodValue method receiver (← args)

/-- `callee?.(args)`. -/
def optionalCall (callee : Lower Temp) (args : Lower Arguments) : Lower Temp := do
  let function ← callee
  optionally function do
    callValue function (← args)

/-! ### Constructors -/

/-- The value of `this`. In the constructor of a derived class it must not be used before the super
call; where no super call was lowered yet, an error is thrown instead. -/
def thisValue : Lower Temp := do
  let function := (← read).function
  if function.isDerivedConstructor && !(← get).superCalled then
    throwBuiltInError .referenceError
      ("Must call super constructor in derived class before accessing 'this' or returning from "
        ++ "derived constructor")
    undefined
  else
    let storage := match function.owner, function.kind with
      | some owner, .constructor | some owner, .method => .reference (.userClass owner.name)
      | _, _ => .object
    define storage .loadThis

/-- A super call. -/
def superCall (args : List Argument) (each : Option Temp → Lower (List Temp)) : Lower Temp := do
  match (← read).function.owner.bind (·.parent) with
  | none => decline .superOutsideDerived
  | some parent =>
    let values ← plainArguments args each .spreadInSuper
    perform (.callSuper parent values)
    modify fun s => { s with superCalled := true }
    thisValue

/-- The given number of `undefined` values. -/
def padding : Nat → Lower (List Temp)
  | 0 => pure []
  | n + 1 => do
    let value ← undefined
    return value :: (← padding n)

/-- `new` of a user class; missing arguments are `undefined`. -/
def newClass (className : String) (args : List Argument) (each : Option Temp → Lower (List Temp)) :
    Lower Temp := do
  match (← read).registry.class? className with
  | none => decline (.unknownClass className)
  | some info =>
    if info.constructorArity < args.length then
      decline (.tooManyConstructorArguments className info.constructorArity args.length)
    else
      let values ← plainArguments args each .spreadInConstruction
      let missing ← padding (info.constructorArity - values.length)
      define .object (.newClass className (values ++ missing))

/-- `new` of a global of the runtime. -/
def newIntrinsic (name : String) (args : List Argument) (each : Option Temp → Lower (List Temp)) :
    Lower Temp := do
  let values ← plainArguments args each .spreadInIntrinsicConstruction
  define .object (.newIntrinsic name values)

/-- `new` of a computed constructor. -/
def newValue (callee : Lower Temp) (args : Lower Arguments) : Lower Temp := do
  let callee ← asObject (← callee)
  let array ← packed (← args)
  define .object (.newValue callee array)

end ScriptLowering.Lower
