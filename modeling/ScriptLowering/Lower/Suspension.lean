import ScriptLowering.Lower.Call

/-!
# Suspension

A resumable function is a state machine over its own capture object. A suspend point hands a value
to whoever drives the function and leaves; re-entry dispatches on the resume state to the label
behind the suspend point. The driver leaves its request in state fields: a value to resume with, a
value to return or an exception to throw.

`yield*` hands the requests on to another generator, through its methods `next`, `return` and
`throw`. Any other operand is turned into an array, whose items are yielded one by one.
-/

namespace ScriptLowering

/-- The state fields through which a resumable function and its driver communicate, and those of
`yield*`. -/
inductive StateField where
  /-- The parameters have been initialized. -/
  | started
  /-- The driver asks for a return. -/
  | hasReturn
  /-- The value to return. -/
  | returnValue
  /-- The driver asks for an exception to be thrown. -/
  | hasResumeException
  /-- The exception to throw. -/
  | resumeException
  /-- The value that was sent. -/
  | resumeValue
  /-- What `yield*` delegates to: nothing, an array or a generator. -/
  | delegateMode
  /-- The array or generator. -/
  | delegateTarget
  /-- The position of the next item of the array. -/
  | delegateIndex
  /-- The length of the array. -/
  | delegateLength
deriving DecidableEq, Inhabited

/-- The name of a state field. -/
def StateField.name : StateField → String
  | .started => "_started"
  | .hasReturn => "_hasReturn"
  | .returnValue => "_returnValue"
  | .hasResumeException => "_hasResumeException"
  | .resumeException => "_resumeException"
  | .resumeValue => "_resumeValue"
  | .delegateMode => "_yieldStarMode"
  | .delegateTarget => "_yieldStarTarget"
  | .delegateIndex => "_yieldStarIndex"
  | .delegateLength => "_yieldStarLength"

namespace Lower

/-! ### Resume points -/

/-- Registers a resume point and gives its state. The first state after the initial one is 1. -/
def addResumePoint (label : Label) (result : Option Temp) (kind : ResumeKind) : Lower Nat :=
  modifyGet fun s =>
    let state := s.resumePoints.size + 1
    (state, { s with resumePoints := s.resumePoints.push { state, label, result, kind } })

/-- Where a rejected `await` continues: in the region around it, if that is a routed one. -/
def rejectRoute? (kind : SuspendKind) : Lower (Option RejectRoute) := do
  match kind, Frame.innermostRegion? (← read).frames with
  | .await, some (.routed route) =>
    match route.throwState with
    | none => return none
    | some state =>
      let pending ← stateField route.fields.exception
      return some { state, pending }
  | _, _ => return none

/-- Hands a value to the driver and continues behind the suspend point with what the driver
sends. -/
def suspend (kind : SuspendKind) (value : Temp) : Lower Temp := do
  if (← read).frames.any Frame.isNative then decline .suspendInProtectedRegion
  else
    let value ← asObject value
    let reject ← rejectRoute? kind
    let label ← freshLabel
    let result ← freshTemp .object
    let state ← addResumePoint label (some result) (match kind with
      | .await => .await
      | .yield => .yield)
    emit (.suspend kind value state label result reject)
    place label
    return result

/-- `await`. -/
def await (operand : Lower Temp) : Lower Temp := do
  if !(← read).function.isAsync then decline .awaitOutsideAsync
  else suspend .await (← operand)

/-- Takes up a request of the driver: if the flag is set, clears it and goes on with the value that
came with the request. -/
def takeRequest (flag value : StateField) (proceed : Temp → Lower Unit) : Lower Unit := do
  let otherwise ← freshLabel
  let requested ← loadState flag.name .bool
  branchIf false requested otherwise
  setFlag flag.name false
  proceed (← loadState value.name .object)
  place otherwise

/-- Yields a value, then returns or throws if the driver asks for it. -/
def yieldValue (value : Temp) : Lower Temp := do
  let sent ← suspend .yield value
  takeRequest .hasReturn .returnValue returnValue
  takeRequest .hasResumeException .resumeException throwValue
  return sent

/-! ### Delegation -/

/-- Records what `yield*` delegates to: 0 for nothing, 1 for an array, 2 for a generator. -/
def setDelegateMode (mode : Nat) : Lower Unit := do
  storeState StateField.delegateMode.name (← number (.ofNat mode))

/-- Ends a delegation. -/
def clearDelegate : Lower Unit := do
  setDelegateMode 0
  clearState StateField.delegateTarget.name

/-- Yields the items of an iterable. -/
def delegateToIterable (operand : Temp) (result : Carrier) : Lower Unit := do
  let head ← freshLabel
  let exhausted ← freshLabel
  let items ← define .array (.normalizeIterable operand)
  setDelegateMode 1
  storeState StateField.delegateTarget.name items
  storeState StateField.delegateIndex.name (← number (.ofNat 0))
  let length ← define .double (.getLength items)
  storeState StateField.delegateLength.name length
  place head
  let index ← loadState StateField.delegateIndex.name .double
  let length ← loadState StateField.delegateLength.name .double
  let more ← define .bool (.compare .lt index length)
  branchIf false more exhausted
  let items ← loadState StateField.delegateTarget.name .array
  let item ← define .object (.getElement items index)
  let one ← number (.ofNat 1)
  let next ← define .double (.numeric .add index one)
  storeState StateField.delegateIndex.name next
  let _ ← yieldValue item
  branch head
  place exhausted
  clearDelegate
  storeCarrier result (← undefined)

/-- Calls a method of the inner generator with the value that came with the driver's request. The
request is cleared first. -/
def forward (step wasReturn : Carrier) (method : String) (argument : StateField)
    (request : Option StateField) (returning : Bool) : Lower Unit := do
  storeCarrier wasReturn (← bool returning)
  match request with
  | none => pure ()
  | some flag => setFlag flag.name false
  let value ← loadState argument.name .object
  let array ← define .array (.packArguments [value])
  let inner ← loadState StateField.delegateTarget.name .object
  let response ← define .object (.callMember inner method array)
  storeCarrier step response

/-- Drives an inner generator to its end. If it ends because of a return request, so does the
function. -/
def delegateToGenerator (operand : Temp) (result : Carrier) : Lower Unit := do
  let next ← freshLabel
  let callReturn ← freshLabel
  let callThrow ← freshLabel
  let afterCall ← freshLabel
  let finished ← freshLabel
  let completed ← freshLabel
  let step ← joinCarrier "yieldStarStep" .object
  let wasReturn ← joinCarrier "yieldStarWasReturn" .bool
  setDelegateMode 2
  storeState StateField.delegateTarget.name operand
  place next
  let hasReturn ← loadState StateField.hasReturn.name .bool
  branchIf true hasReturn callReturn
  let hasException ← loadState StateField.hasResumeException.name .bool
  branchIf true hasException callThrow
  forward step wasReturn "next" .resumeValue none false
  branch afterCall
  place callReturn
  forward step wasReturn "return" .returnValue (some .hasReturn) true
  branch afterCall
  place callThrow
  forward step wasReturn "throw" .resumeException (some .hasResumeException) false
  place afterCall
  let response ← loadCarrier step
  let done ← asBoolean (← define .object (.getProperty response "done"))
  branchIf true done finished
  let value ← define .object (.getProperty response "value")
  let _ ← suspend .yield value
  branch next
  place finished
  let final ← define .object (.getProperty response "value")
  clearDelegate
  let returned ← loadCarrier wasReturn
  branchIf false returned completed
  returnValue final
  place completed
  storeCarrier result final

/-- `yield*` on an evaluated operand. -/
def delegate (operand : Temp) : Lower Temp := do
  let operand ← asObject operand
  let result ← joinCarrier "yieldStar" .object
  let generatorPath ← freshLabel
  let done ← freshLabel
  let isGenerator ← define .bool (.isInstance operand "Generator")
  branchIf true isGenerator generatorPath
  delegateToIterable operand result
  branch done
  place generatorPath
  delegateToGenerator operand result
  place done
  loadCarrier result

/-- `yield`, or `yield*` when it delegates. -/
def yieldExpr (operand : Lower Temp) (delegates : Bool) : Lower Temp := do
  if !(← read).function.isGenerator then decline .yieldOutsideGenerator
  else
    let value ← operand
    if delegates then delegate value else yieldValue value

end Lower

end ScriptLowering
