import ScriptLowering.Id
import ScriptLowering.Number.Binary64
import ScriptLowering.Storage

/-!
# Instructions

A lowered body is a flat list of instructions. An instruction either defines one temp as the result
of an `Operation`, performs an `Effect` that defines nothing, or directs control. Operations and
effects name the temps they read; `Instr.uses` lists them in operand order and `Instr.result?` is
the temp that the instruction defines.

The one instruction that both directs control and defines a temp is `Instr.suspend`: it leaves the
function, and its temp is defined when control comes back at the resume label.
-/

namespace ScriptLowering

/-! ### Operators and small vocabularies -/

/-- Arithmetic on unboxed doubles. -/
inductive NumericOp where
  | add
  | sub
  | mul
  | div
  | mod
  | exp
  | bitAnd
  | bitOr
  | bitXor
  | shl
  | shr
  | ushr
deriving DecidableEq, Inhabited

/-- Comparisons of unboxed doubles. -/
inductive CompareOp where
  | lt
  | le
  | gt
  | ge
  | eq
  | ne
deriving DecidableEq, Inhabited

/-- Operators that the runtime carries out on arbitrary values. -/
inductive DynamicOp where
  | looseEq
  | looseNe
  | strictEq
  | strictNe
  | lt
  | le
  | gt
  | ge
  | instanceOf
  | memberIn
deriving DecidableEq, Inhabited

/-- Unary arithmetic on unboxed doubles. -/
inductive NumericUnaryOp where
  | neg
  | bitNot
deriving DecidableEq, Inhabited

/-- Changes of representation. -/
inductive Coercion where
  /-- To an object-shaped value. -/
  | toObject
  /-- To an unboxed double. -/
  | toNumber
  /-- From a bare primitive to an unboxed boolean. -/
  | toBoolean
  /-- From an arbitrary value to an unboxed boolean. -/
  | truthiness
  /-- To a string. -/
  | toText
deriving DecidableEq, Inhabited

/-- The errors that lowered code raises by itself. -/
inductive ErrorKind where
  | typeError
  | referenceError
deriving DecidableEq, Inhabited

/-- Services of the runtime that implement language protocols. -/
inductive RuntimeHelper where
  | getIterator
  | iteratorNext
  | iteratorResultDone
  | iteratorResultValue
  | iteratorClose
  /-- The enumerable string keys of an object, as an array. -/
  | enumerateKeys
  /-- A copy of an object without the listed keys. -/
  | objectRest
  /-- Copies the own properties of one object into another. -/
  | objectAssign
deriving DecidableEq, Inhabited

/-- What a suspended function waits for. -/
inductive SuspendKind where
  | await
  | yield
deriving DecidableEq, Inhabited

/-- Where a rejected `await` continues. -/
structure RejectRoute where
  /-- The resume state entered on rejection. -/
  state : Nat
  /-- The field of the capture object that receives the reason. -/
  pending : FieldRef
deriving DecidableEq, Inhabited

/-- An entry of a dispatch table. -/
structure StateLabel where
  /-- The resume state. -/
  state : Nat
  /-- Where that state continues. -/
  label : Label
deriving DecidableEq, Inhabited

/-- Where an element of a new scope-chain array comes from. -/
inductive ScopeSource where
  /-- The capture object of the running function. -/
  | leaf
  /-- An element of the scope chain that the running function received. -/
  | received (index : Nat)
  /-- A capture object held in a temp. -/
  | temp (temp : Temp)
deriving DecidableEq, Inhabited

/-- A constant. -/
inductive Literal where
  | number (value : Binary64)
  | string (value : String)
  | bool (value : Bool)
  | null
  | undefined
deriving DecidableEq, Inhabited

/-! ### Operations -/

/-- A computation whose result goes into a temp. -/
inductive Operation where
  | literal (value : Literal)
  | copy (source : Temp)
  | loadSlot (slot : Slot)
  | loadArgument (index : Nat)
  | loadThis
  /-- The exception with which a catch handler was entered. -/
  | loadException
  /-- A new capture object of a block. -/
  | newScope (scope : String)
  /-- A field of the running function's capture object. -/
  | loadLeafField (field : FieldRef)
  /-- A field of an element of the received scope chain. -/
  | loadParentField (index : Nat) (field : FieldRef)
  /-- A field of a capture object held in a temp. -/
  | loadScopeField (scope : Temp) (field : FieldRef)
  /-- A scope-chain array. -/
  | buildScopes (sources : List ScopeSource)
  | coerce (kind : Coercion) (source : Temp)
  | typeOf (value : Temp)
  | isNullish (value : Temp)
  | isUndefined (value : Temp)
  | isInstance (value : Temp) (className : String)
  | numeric (op : NumericOp) (left right : Temp)
  | compare (op : CompareOp) (left right : Temp)
  | numericUnary (op : NumericUnaryOp) (operand : Temp)
  | not (operand : Temp)
  | concat (left right : Temp)
  /-- JavaScript `+` on arbitrary values. -/
  | add (left right : Temp)
  /-- JavaScript `+` followed by the conversion to a number, in one step. -/
  | addToNumber (left right : Temp)
  | dynamic (op : DynamicOp) (left right : Temp)
  | newError (kind : ErrorKind) (message : String)
  | newArray (elements : List Temp)
  /-- An argument array of fixed size. -/
  | packArguments (elements : List Temp)
  | newObject (properties : List (String × Temp))
  | getProperty (object : Temp) (name : String)
  | getItem (object key : Temp)
  | getLength (object : Temp)
  /-- An array element at an unboxed position. -/
  | getElement (array index : Temp)
  /-- A declared field of an instance of a user class. -/
  | loadField (receiver : Temp) (className field : String)
  /-- An array holding the items of an iterable. -/
  | normalizeIterable (source : Temp)
  | globalValue (name : String)
  | classValue (className : String)
  /-- A call of a known function. -/
  | callFunction (callable : Callable) (scopes : Temp) (args : List Temp)
  /-- A call of a function value with few plain arguments. -/
  | callValue (function scopes : Temp) (args : List Temp)
  /-- A call of a function value with an argument array. -/
  | callValuePacked (function scopes packed : Temp)
  /-- A call of a method value that was read from its receiver before. -/
  | callMethodValue (function receiver scopes packed : Temp)
  /-- A member call with an argument array. -/
  | callMember (receiver : Temp) (name : String) (packed : Temp)
  /-- A member call with few plain arguments. -/
  | callMemberFixed (receiver : Temp) (name : String) (args : List Temp)
  /-- An early-bound member call; a guarded one tests the receiver's class first and otherwise looks
  the member up. -/
  | callTyped (guarded : Bool) (className name : String) (callable : Callable) (receiver : Temp)
      (args : List Temp)
  | callStatic (className name : String) (callable : Callable) (args : List Temp)
  | callGlobal (name : String) (args : List Temp)
  | callIntrinsicMember (intrinsic method : String) (args : List Temp)
  | callRuntime (helper : RuntimeHelper) (args : List Temp)
  /-- A function bound to a scope chain. -/
  | closure (callable : Callable) (scopes : Temp) (isArrow : Bool)
  | newClass (className : String) (args : List Temp)
  | newIntrinsic (intrinsic : String) (args : List Temp)
  | newValue (constructor packed : Temp)
deriving DecidableEq, Inhabited

/-- The temp that a chain element is read from. -/
def ScopeSource.temp? : ScopeSource → Option Temp
  | .leaf | .received _ => none
  | .temp t => some t

/-- The temps that an operation reads, in operand order. -/
def Operation.uses : Operation → List Temp
  | .literal _ | .loadSlot _ | .loadArgument _ | .loadThis | .loadException | .newScope _
  | .loadLeafField _ | .loadParentField _ _ | .newError _ _ | .globalValue _ | .classValue _ => []
  | .copy t | .coerce _ t | .typeOf t | .isNullish t | .isUndefined t | .isInstance t _
  | .numericUnary _ t | .not t | .loadScopeField t _ | .getProperty t _ | .getLength t
  | .loadField t _ _ | .normalizeIterable t | .closure _ t _ => [t]
  | .numeric _ l r | .compare _ l r | .concat l r | .add l r | .addToNumber l r | .dynamic _ l r
  | .getItem l r | .getElement l r | .callMember l _ r | .newValue l r => [l, r]
  | .buildScopes sources => sources.filterMap ScopeSource.temp?
  | .newArray ts | .packArguments ts | .callStatic _ _ _ ts | .callGlobal _ ts
  | .callIntrinsicMember _ _ ts | .callRuntime _ ts | .newClass _ ts | .newIntrinsic _ ts => ts
  | .newObject properties => properties.map (·.2)
  | .callFunction _ scopes args => scopes :: args
  | .callValue function scopes args => function :: scopes :: args
  | .callValuePacked function scopes packed => [function, scopes, packed]
  | .callMethodValue function receiver scopes packed => [function, receiver, scopes, packed]
  | .callMemberFixed receiver _ args | .callTyped _ _ _ _ receiver args => receiver :: args

/-- The operation may run user code as a call. -/
def Operation.isCall : Operation → Bool
  | .callFunction .. | .callValue .. | .callValuePacked .. | .callMethodValue .. | .callMember ..
  | .callMemberFixed .. | .callTyped .. | .callStatic .. | .callGlobal ..
  | .callIntrinsicMember .. => true
  | _ => false

/-! ### Effects -/

/-- An action that defines no temp. -/
inductive Effect where
  | storeSlot (slot : Slot) (value : Temp)
  | storeArgument (index : Nat) (value : Temp)
  /-- Creates the running function's own capture object. -/
  | createLeaf (scope : String)
  | storeLeafField (field : FieldRef) (value : Temp)
  | storeParentField (index : Nat) (field : FieldRef) (value : Temp)
  | storeScopeField (scope : Temp) (field : FieldRef) (value : Temp)
  | appendItem (array value : Temp)
  | appendAll (array iterable : Temp)
  | setProperty (object : Temp) (name : String) (value : Temp)
  | setItem (object key value : Temp)
  /-- Stores into a declared field of an instance; the declared type, if any, comes along. -/
  | storeField (receiver : Temp) (className field : String) (ty : Option ValueType) (value : Temp)
  | callSuper (className : String) (args : List Temp)
deriving DecidableEq, Inhabited

/-- The temps that an effect reads, in operand order. -/
def Effect.uses : Effect → List Temp
  | .storeSlot _ t | .storeArgument _ t | .storeLeafField _ t | .storeParentField _ _ t => [t]
  | .createLeaf _ => []
  | .storeScopeField s _ t | .appendItem s t | .appendAll s t | .setProperty s _ t
  | .storeField s _ _ _ t => [s, t]
  | .setItem object key value => [object, key, value]
  | .callSuper _ args => args

/-! ### Instructions -/

/-- An instruction. -/
inductive Instr where
  /-- Defines a temp as the result of an operation. -/
  | define (result : Temp) (op : Operation)
  | perform (effect : Effect)
  | label (label : Label)
  | branch (target : Label)
  /-- Branches when the condition has the expected value. -/
  | branchIf (expected : Bool) (condition : Temp) (target : Label)
  /-- Leaves the protected regions that do not contain the target. -/
  | leave (target : Label)
  | endFinally
  | ret (value : Temp)
  | raise (value : Temp)
  /-- Continues where the resume state says, or at `start` in the initial state. -/
  | dispatch (targets : List StateLabel) (start : Label)
  /-- Hands `value` over and leaves; re-entry continues at `label` with `result` defined. -/
  | suspend (kind : SuspendKind) (value : Temp) (state : Nat) (label : Label) (result : Temp)
      (reject : Option RejectRoute)
  /-- Rejects the promise of an async function and finishes. -/
  | asyncReject (reason : Temp)
deriving DecidableEq, Inhabited

namespace Instr

/-- The temp that the instruction defines. -/
def result? : Instr → Option Temp
  | .define result _ => some result
  | .suspend _ _ _ _ result _ => some result
  | _ => none

/-- The temps that the instruction reads, in operand order. -/
def uses : Instr → List Temp
  | .define _ op => op.uses
  | .perform effect => effect.uses
  | .branchIf _ t _ | .ret t | .raise t | .suspend _ t _ _ _ _ | .asyncReject t => [t]
  | .label _ | .branch _ | .leave _ | .endFinally | .dispatch _ _ => []

/-- The target of a jump. -/
def target? : Instr → Option Label
  | .branch target | .branchIf _ _ target | .leave target => some target
  | _ => none

/-- The instruction calls into user code. -/
def isCall : Instr → Bool
  | .define _ op => op.isCall
  | .perform (.callSuper _ _) => true
  | _ => false

/-- The instruction changes the representation of a value. -/
def isCoercion : Instr → Bool
  | .define _ (.coerce _ _) => true
  | _ => false

/-- Control may enter behind the instruction, or may not fall through it: a basic block ends
here. -/
def endsBlock : Instr → Bool
  | .define _ _ | .perform _ => false
  | _ => true

end Instr

end ScriptLowering
