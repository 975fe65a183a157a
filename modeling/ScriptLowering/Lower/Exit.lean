import ScriptLowering.Lower.Value

/-!
# Exits

The ways in which control leaves the code around it: `break`, `continue`, `return` and `throw`. Each
of them looks at the frames that are open, innermost first.

A jump out of a protected region is a `leave`, which runs the finally handlers on its way; a jump
cannot leave a finally handler, and it cannot pass by a routed finally block, which nothing would
run. A return out of a protected region goes through the shared exit of the function. A return that
meets a routed finally block is recorded as pending and continues behind the block.
-/

namespace ScriptLowering

namespace Frame

/-- Where a break out of the frame leads. -/
def exit? : Frame → Option Label
  | .loop exit _ _ | .switch exit | .labeled exit _ => some exit
  | _ => none

/-- The label in front of the statement. -/
def name? : Frame → Option String
  | .loop _ _ name => name
  | .labeled _ name => some name
  | _ => none

/-- The frame is a loop. -/
def isLoop : Frame → Bool
  | .loop .. => true
  | _ => false

/-- A break without a label leaves the frame. -/
def takesPlainBreak : Frame → Bool
  | .loop .. | .switch _ => true
  | _ => false

/-- The frame is a region rather than the target of jumps. -/
def isRegion : Frame → Bool
  | .guarded | .finallyHandler | .routed _ => true
  | _ => false

/-- The frame is part of a protected region of the target machine. -/
def isNative : Frame → Bool
  | .guarded | .finallyHandler => true
  | _ => false

/-- The frame is a finally handler. -/
def isFinallyHandler : Frame → Bool
  | .finallyHandler => true
  | _ => false

/-- The routed finally block that guards the frame. -/
def finallyRoute? : Frame → Option (PendingFields × FinallyRoute)
  | .routed route => route.finallyRoute.map (route.fields, ·)
  | _ => none

/-- Whether a jump across the frames, innermost first, has to leave a protected region. -/
def crossing : List Frame → Except Decline Bool
  | [] => .ok false
  | .guarded :: outer => do
    let _ ← crossing outer
    return true
  | .finallyHandler :: _ => .error .jumpOutOfFinally
  | .routed route :: outer =>
    if route.finallyRoute.isSome then .error .jumpAcrossRoutedFinally else crossing outer
  | _ :: outer => crossing outer

/-- The innermost region of the frames. -/
def innermostRegion? (frames : List Frame) : Option Frame :=
  frames.find? isRegion

end Frame

namespace Lower

/-- Jumps to `target` across the given frames. -/
def jumpAcross (crossed : List Frame) (target : Label) : Lower Unit :=
  match Frame.crossing crossed with
  | .error reason => decline reason
  | .ok true => emit (.leave target)
  | .ok false => emit (.branch target)

/-- Jumps out of the innermost frame that `isTarget` accepts, to the label that `label?` gives for
it. -/
def jumpTo (isTarget : Frame → Bool) (label? : Frame → Option Label) (missing : Decline) :
    Lower Unit := do
  let frames := (← read).frames
  match (frames.find? isTarget).bind label? with
  | none => decline missing
  | some target => jumpAcross (frames.takeWhile fun f => !isTarget f) target

/-- The frame that a jump with the given label, if any, refers to. -/
def refersTo (plain : Frame → Bool) (name : Option String) (f : Frame) : Bool :=
  match name with
  | none => plain f
  | some name => f.name? == some name

/-- Leaves a loop, switch or labeled statement. -/
def breakTo (name : Option String) : Lower Unit :=
  jumpTo (refersTo Frame.takesPlainBreak name) Frame.exit? .breakWithoutTarget

/-- Starts the next iteration of a loop. A label that names no loop has no next iteration. -/
def continueTo (name : Option String) : Lower Unit :=
  let next? : Frame → Option Label
    | .loop _ next _ => some next
    | _ => none
  jumpTo (refersTo Frame.isLoop name) next? .continueWithoutLoop

/-- The shared exit, allocated when a return first needs it. -/
def sharedExit : Lower ReturnEpilogue := do
  match (← get).epilogue with
  | some epilogue => return epilogue
  | none =>
    let label ← freshLabel
    let slot ← freshSlot { name := "$return", storage := .object, binding := none }
    modify fun s => { s with epilogue := some ⟨label, slot⟩ }
    return ⟨label, slot⟩

/-- Records a return as pending and goes to the finally block, or behind it from inside the
block. -/
def returnThrough (fields : PendingFields) (route : FinallyRoute) (value : Temp) : Lower Unit := do
  storeState fields.returnValue value
  setFlag fields.hasReturn true
  setFlag fields.hasException false
  clearState fields.exception
  branch (if route.isInside then route.exit else route.entry)

/-- Returns from the function. -/
def returnValue (value : Temp) : Lower Unit := do
  let value ← asObject value
  let frames := (← read).frames
  match frames.dropWhile fun f => !f.isNative with
  | _ :: outer =>
    if frames.any Frame.isFinallyHandler then decline .returnInsideFinally
    else if outer.any fun f => f.finallyRoute?.isSome then decline .returnAcrossRoutedFinally
    else
      let epilogue ← sharedExit
      storeSlot epilogue.slot value
      emit (.leave epilogue.label)
  | [] =>
    match frames.findSome? Frame.finallyRoute? with
    | some (fields, route) => returnThrough fields route value
    | none => emit (.ret value)

/-- Places the shared exit, if some return uses it. -/
def placeSharedExit : Lower Unit := do
  match (← get).epilogue with
  | none => pure ()
  | some epilogue =>
    place epilogue.label
    let value ← loadSlot epilogue.slot
    emit (.ret value)

/-- Throws an exception. In a routed region it becomes the pending exception; outside all regions an
async function rejects its promise. -/
def throwValue (value : Temp) : Lower Unit := do
  let value ← asObject value
  let ctx ← read
  match Frame.innermostRegion? ctx.frames with
  | some (.routed route) =>
    storeState route.fields.exception value
    branch route.throwLabel
  | some _ => emit (.raise value)
  | none => emit (if ctx.function.isAsync then .asyncReject value else .raise value)

/-- Throws a built-in error. -/
def throwBuiltInError (kind : ErrorKind) (message : String) : Lower Unit := do
  throwValue (← define .object (.newError kind message))

end Lower

end ScriptLowering
