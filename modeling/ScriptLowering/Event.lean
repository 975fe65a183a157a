/-!
# Declines and events

A body that the lowering cannot handle is *declined*, with a reason. Along the way the lowering
reports what it does as a short sequence of events; a decline is reported once, as the last of them.
-/

namespace ScriptLowering

/-- Why a body is declined. -/
inductive Decline where
  | tooManyParameters
  /-- An operand that was evaluated already would have to survive a suspension. -/
  | operandAfterSuspend
  | suspendInPattern
  | suspendInCaseTest
  | suspendInProtectedRegion
  /-- The scope chain does not lead to the binding's scope. -/
  | unreachableBinding (name : String)
  /-- A block's capture object is needed where the block is not active. -/
  | inactiveBlock
  /-- A callee expects a capture object that is not at hand. -/
  | unavailableScope (name : String)
  | breakWithoutTarget
  | continueWithoutLoop
  | jumpOutOfFinally
  | jumpAcrossRoutedFinally
  | returnInsideFinally
  | returnAcrossRoutedFinally
  | invalidTarget
  | destructuringWithoutInit
  | superOutsideDerived
  | spreadInSuper
  | unknownClass (name : String)
  | tooManyConstructorArguments (className : String) (arity given : Nat)
  | spreadInConstruction
  | spreadInIntrinsicConstruction
  | awaitOutsideAsync
  | yieldOutsideGenerator
deriving DecidableEq, Inhabited

/-- The reason in words. -/
def Decline.message : Decline → String
  | .tooManyParameters => "too many parameters"
  | .operandAfterSuspend => "operand evaluated after a suspend point"
  | .suspendInPattern => "suspend point inside a destructuring pattern"
  | .suspendInCaseTest => "suspend point inside a switch case test"
  | .suspendInProtectedRegion => "suspend point inside a native protected region"
  | .unreachableBinding name => "binding `" ++ name ++ "` is not reachable through the scope chain"
  | .inactiveBlock => "block capture object used outside its block"
  | .unavailableScope name => "scope `" ++ name ++ "` is not available to the callee"
  | .breakWithoutTarget => "break without a target"
  | .continueWithoutLoop => "continue without a loop target"
  | .jumpOutOfFinally => "jump out of a finally handler"
  | .jumpAcrossRoutedFinally => "jump across a routed finally block"
  | .returnInsideFinally => "return inside a finally handler"
  | .returnAcrossRoutedFinally => "return from a protected region inside a routed finally"
  | .invalidTarget => "invalid assignment target"
  | .destructuringWithoutInit => "destructuring declaration without initializer"
  | .superOutsideDerived => "super call outside a derived constructor"
  | .spreadInSuper => "spread in super call"
  | .unknownClass name => "unknown class `" ++ name ++ "`"
  | .tooManyConstructorArguments className arity given =>
    "`" ++ className ++ "` constructor takes " ++ toString arity ++ " arguments, got "
      ++ toString given
  | .spreadInConstruction => "spread in user class construction"
  | .spreadInIntrinsicConstruction => "spread in intrinsic construction"
  | .awaitOutsideAsync => "await outside an async function"
  | .yieldOutsideGenerator => "yield outside a generator"

/-- What a caller is told about a declined body. -/
def declinedMessage : String :=
  "construct not supported by the fast lowering path"

/-- Something that the lowering reports. -/
inductive Event where
  /-- The lowering of a function starts. -/
  | started (function : String) (resumable : Bool)
  /-- The body is declined. -/
  | declined (reason : Decline)
  /-- A `try` around a suspend point keeps its pending exception in the named field. -/
  | routed (field : String)
  /-- The lowering is finished; the counts are those before the passes. -/
  | lowered (function : String) (instructions temps : Nat)
  /-- The passes are finished; each count is the number of changes that a pass made. -/
  | optimized (function : String) (coercions types memberCalls : Nat)
deriving DecidableEq, Inhabited

/-- How prominent an event is. -/
inductive Level where
  | debug
  | trace
deriving DecidableEq, Inhabited

/-- The level of an event. -/
def Event.level : Event → Level
  | .started .. | .declined _ => .debug
  | .routed _ | .lowered .. | .optimized .. => .trace

/-- The event in words; what varies from one to the next is in its fields. -/
def Event.message : Event → String
  | .started .. => "lowering function body"
  | .declined _ => "lowering declined"
  | .routed _ => "routing try region through state fields"
  | .lowered .. => "lowered function body"
  | .optimized .. => "optimization passes finished"

end ScriptLowering
