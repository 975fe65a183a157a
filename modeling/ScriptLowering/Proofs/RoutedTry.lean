import ScriptLowering.Lower.Protection

/-!
# The parts of a routed `try`

A routed `try` with a finalizer is put together from named parts: what is pending is cleared, the
block and the handler are routed to the finally block, the finalizer is entered with or without an
exception, and behind it whatever is pending is taken up again.
-/

namespace ScriptLowering.Lower

variable {fields : PendingFields} {block finalizer : Lower Unit}
variable {handler : Option (Temp → Lower Unit)}

/-- Nothing is pending any more. -/
def clearPending (fields : PendingFields) : Lower Unit := do
  clearState fields.exception
  setFlag fields.hasException false
  clearState fields.returnValue
  setFlag fields.hasReturn false

/-- Takes the exception out of its field. -/
def takeException (fields : PendingFields) : Lower Temp := do
  let exception ← loadState fields.exception .object
  clearState fields.exception
  setFlag fields.hasException false
  return exception

/-- An exception at its label becomes the completion that is encoded, and the machine goes on to
another label. -/
def noteAt (fields : PendingFields) (thrown next : Label) : Lower Unit := do
  place thrown
  notePendingException fields
  branch next

/-- The test of a flag, which is skipped if the flag is set. -/
def testFlag (l : Label) (name : String) (target : Label) : Lower Unit := do
  place l
  let flag ← loadState name .bool
  branchIf false flag target

/-- The code behind the finally block, which takes up what is pending. -/
def takeUp (fields : PendingFields) (exit checkReturn after : Label) : Lower Unit := do
  testFlag exit fields.hasException checkReturn
  let thrown ← loadState fields.exception .object
  throwValue thrown
  testFlag checkReturn fields.hasReturn after
  let returned ← loadState fields.returnValue .object
  returnValue returned
  place after

/-- The code from the finally block on, together with what leads an exception into the block. -/
def finishing (fields : PendingFields) (finalizer : Lower Unit)
    (exceptionToFinally exceptionInFinally entry exit checkReturn after : Label) : Lower Unit := do
  noteAt fields exceptionToFinally entry
  place entry
  routed fields exceptionInFinally (some ⟨entry, exit, true⟩) finalizer
  branch exit
  noteAt fields exceptionInFinally exit
  takeUp fields exit checkReturn after

/-- The handler, if there is one, and what follows it. -/
def handling (fields : PendingFields) (handler : Option (Temp → Lower Unit)) (rest : Lower Unit)
    (catchLabel exceptionToFinally entry exit : Label) : Lower Unit :=
  match handler with
  | none => rest
  | some handler => do
    place catchLabel
    routed fields exceptionToFinally (some ⟨entry, exit, false⟩) (takeException fields >>= handler)
    branch entry
    rest

/-- A routed statement with a finalizer, with the given labels. -/
def routedFinallyAt (fields : PendingFields) (block : Lower Unit)
    (handler : Option (Temp → Lower Unit)) (finalizer : Lower Unit)
    (catchLabel exceptionToFinally exceptionInFinally entry exit checkReturn after : Label) :
    Lower Unit := do
  clearPending fields
  routed fields (if handler.isSome then catchLabel else exceptionToFinally)
    (some ⟨entry, exit, false⟩) block
  branch entry
  handling fields handler
    (finishing fields finalizer exceptionToFinally exceptionInFinally entry exit checkReturn after)
    catchLabel exceptionToFinally entry exit

theorem routedHandler_eq (handler : Temp → Lower Unit) :
    routedHandler fields handler = takeException fields >>= handler := by
  simp [routedHandler, takeException]

theorem routedFinally_eq : routedFinally fields block handler finalizer = (do
    let catchLabel ← freshLabel
    let exceptionToFinally ← freshLabel
    let exceptionInFinally ← freshLabel
    let entry ← freshLabel
    let exit ← freshLabel
    let checkReturn ← freshLabel
    let after ← freshLabel
    routedFinallyAt fields block handler finalizer catchLabel exceptionToFinally exceptionInFinally
      entry exit checkReturn after) := by
  cases handler <;>
    simp [routedFinally, routedFinallyAt, handling, clearPending, finishing, noteAt, takeUp, testFlag,
      routedHandler_eq]

end ScriptLowering.Lower
