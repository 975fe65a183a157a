import ScriptLowering.Lower.Expression

/-!
# Try statements

A `try` without a suspend point becomes a protected region of the target machine; with both a
handler and a finalizer it becomes two, the inner one for the handler.

A `try` around a suspend point is *routed*: no protected region can span a suspension, so the ways
in which its parts can be left are carried by state fields and branches. A throw stores the pending
exception and jumps to the handler or, past it, to the finally block. A return stores the pending
value and jumps to the finally block. Behind the finally block whatever is pending is taken up
again, now outside the statement.
-/

namespace ScriptLowering.Lower

/-- Binds the exception and runs the body of a catch clause. -/
def catchBody (scope : Option ScopeId) (param : Option Pattern) (body : Lower Unit)
    (exception : Temp) : Lower Unit :=
  inScope scope do
    match param with
    | none => pure ()
    | some pattern => bindPattern .init pattern exception
    body

/-! ### Protected regions -/

/-- A block and the handler for its exceptions; both leave to `after`. -/
def protectedCatch (block : Lower Unit) (handler : Temp → Lower Unit) (after : Label) :
    Lower Unit := do
  let tryStart ← freshLabel
  let handlerStart ← freshLabel
  let handlerEnd ← freshLabel
  within .guarded do
    place tryStart
    block
    emit (.leave after)
  place handlerStart
  within .guarded do
    handler (← define .object .loadException)
    emit (.leave after)
  place handlerEnd
  addRegion
    { kind := .catchHandler, tryStart, tryEnd := handlerStart, handlerStart, handlerEnd }

/-- Code that leaves to `after` by itself, and the finalizer that runs whichever way it is left. -/
def protectedFinally (code finalizer : Lower Unit) : Lower Unit := do
  let tryStart ← freshLabel
  let handlerStart ← freshLabel
  let handlerEnd ← freshLabel
  within .guarded do
    place tryStart
    code
  place handlerStart
  within .finallyHandler do
    finalizer
    emit .endFinally
  place handlerEnd
  addRegion
    { kind := .finallyHandler, tryStart, tryEnd := handlerStart, handlerStart, handlerEnd }

/-- A `try` without a suspend point. -/
def protectedTry (block : Lower Unit) (handler : Option (Temp → Lower Unit))
    (finalizer : Option (Lower Unit)) : Lower Unit := do
  let after ← freshLabel
  match handler, finalizer with
  | none, none => block
  | some handler, none => protectedCatch block handler after
  | none, some finalizer =>
    let code : Lower Unit := do
      block
      emit (.leave after)
    protectedFinally code finalizer
  | some handler, some finalizer =>
    protectedFinally (protectedCatch block handler after) finalizer
  place after

/-! ### Routing -/

/-- The state fields of the next routed `try`; all but the first carry a number. -/
def pendingFields : Lower PendingFields := do
  let count := (← get).routedCount
  modify fun s => { s with routedCount := s.routedCount + 1 }
  let suffix := if count = 0 then "" else toString count
  return {
    exception := "_pendingException" ++ suffix
    hasException := "_hasPendingException" ++ suffix
    returnValue := "_pendingReturn" ++ suffix
    hasReturn := "_hasPendingReturn" ++ suffix }

/-- Lowers code whose exceptions continue at `throwLabel`. In an async function the label gets a
resume state, for the rejection of an `await`. -/
def routed (fields : PendingFields) (throwLabel : Label) (finallyRoute : Option FinallyRoute)
    (code : Lower Unit) : Lower Unit := do
  let throwState ← if (← read).function.isAsync
    then some <$> addResumePoint throwLabel none .reject
    else pure none
  within (.routed { throwLabel, throwState, fields, finallyRoute }) code

/-- Takes the pending exception and hands it to the handler. -/
def routedHandler (fields : PendingFields) (handler : Temp → Lower Unit) : Lower Unit := do
  let exception ← loadState fields.exception .object
  clearState fields.exception
  setFlag fields.hasException false
  handler exception

/-- A routed `try` without a finalizer. -/
def routedCatch (fields : PendingFields) (block : Lower Unit) (handler : Temp → Lower Unit) :
    Lower Unit := do
  let catchLabel ← freshLabel
  let after ← freshLabel
  clearState fields.exception
  routed fields catchLabel none block
  branch after
  place catchLabel
  routedHandler fields handler
  place after

/-- Records that an exception has to be raised again behind the finally block. -/
def notePendingException (fields : PendingFields) : Lower Unit := do
  setFlag fields.hasException true
  setFlag fields.hasReturn false

/-- A routed `try` with a finalizer. -/
def routedFinally (fields : PendingFields) (block : Lower Unit)
    (handler : Option (Temp → Lower Unit)) (finalizer : Lower Unit) : Lower Unit := do
  let catchLabel ← freshLabel
  let exceptionToFinally ← freshLabel
  let exceptionInFinally ← freshLabel
  let entry ← freshLabel
  let exit ← freshLabel
  let checkReturn ← freshLabel
  let after ← freshLabel
  clearState fields.exception
  setFlag fields.hasException false
  clearState fields.returnValue
  setFlag fields.hasReturn false
  let route : FinallyRoute := { entry, exit, isInside := false }
  routed fields (if handler.isSome then catchLabel else exceptionToFinally) (some route) block
  branch entry
  match handler with
  | none => pure ()
  | some handler =>
    place catchLabel
    routed fields exceptionToFinally (some route) (routedHandler fields handler)
    branch entry
  place exceptionToFinally
  notePendingException fields
  branch entry
  place entry
  routed fields exceptionInFinally (some { route with isInside := true }) finalizer
  branch exit
  place exceptionInFinally
  notePendingException fields
  branch exit
  -- whatever is pending is taken up again, outside this statement
  place exit
  let hasException ← loadState fields.hasException .bool
  branchIf false hasException checkReturn
  throwValue (← loadState fields.exception .object)
  place checkReturn
  let hasReturn ← loadState fields.hasReturn .bool
  branchIf false hasReturn after
  returnValue (← loadState fields.returnValue .object)
  place after

/-- A `try` around a suspend point. -/
def routedTry (block : Lower Unit) (handler : Option (Temp → Lower Unit))
    (finalizer : Option (Lower Unit)) : Lower Unit := do
  let fields ← pendingFields
  report (.routed fields.exception)
  match handler, finalizer with
  | none, none => block
  | some handler, none => routedCatch fields block handler
  | handler, some finalizer => routedFinally fields block handler finalizer

end ScriptLowering.Lower
