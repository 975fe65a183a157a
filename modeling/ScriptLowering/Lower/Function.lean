import ScriptLowering.Lower.Statement

/-!
# Functions

The lowering of a whole function: its entry, its parameters, its statements and its exit.

A function that is not resumable creates its own capture object, if it has one, and then initializes
its parameters. The capture object of a resumable function exists before it is called; the body
starts with the dispatch on the resume state, and a state field records that the parameters have
been initialized.
-/

namespace ScriptLowering

namespace Lower

/-! ### Parameters -/

/-- The number of parameters that an argument position can tell apart. -/
def parameterLimit : Nat := 65536

/-- Puts the default in place of an argument that is `undefined`. -/
def argumentDefault (index : Nat) (default : Lower Temp) : Lower Unit := do
  let skip ← freshLabel
  let argument ← define .object (.loadArgument index)
  let isUndefined ← define .bool (.isUndefined argument)
  branchIf false isUndefined skip
  let value ← asObject (← default)
  perform (.storeArgument index value)
  place skip

/-- A parameter is a plain one if it is a binding that lives in its argument position. -/
def livesInArgument : Pattern → Lower Bool
  | .binding binding => do
    match ← placement binding with
    | .argument _ => return true
    | _ => return false
  | _ => pure false

/-- Initializes the parameter at a position. -/
def parameter (index : Nat) (param : Param) : Lower Unit := do
  if index ≥ parameterLimit then decline .tooManyParameters
  else if ← livesInArgument param.target then
    match param.default with
    | none => pure ()
    | some default => argumentDefault index (lowerExpr default)
  else
    let argument ← define .object (.loadArgument index)
    let value ← match param.default with
      | none => pure argument
      | some default => valueOrDefault argument (lowerExpr default)
    bindPattern .init param.target value

/-- Initializes the parameters from a position on. -/
def parameters : Nat → List Param → Lower Unit
  | _, [] => pure ()
  | index, param :: rest => do
    parameter index param
    parameters (index + 1) rest

/-! ### Entry and exit -/

/-- The entry of a resumable function. The table of the dispatch is filled in when all resume points
are known. -/
def resumableEntry (params : List Param) : Lower Unit := do
  let start ← freshLabel
  emit (.dispatch [] start)
  place start
  let bodyStart ← freshLabel
  let started ← loadState StateField.started.name .bool
  branchIf true started bodyStart
  setFlag StateField.started.name true
  parameters 0 params
  place bodyStart

/-- The entry of a function that runs in one piece. -/
def plainEntry (params : List Param) : Lower Unit := do
  let ctx ← read
  if ctx.ownsLeaf then perform (.createLeaf ctx.leafName)
  parameters 0 params

/-- Lowers the function of the context. Control that reaches the end of the body returns
`undefined`. -/
def wholeFunction : Lower Unit := do
  let function := (← read).function
  report (.started function.name function.isResumable)
  if function.isResumable then resumableEntry function.params else plainEntry function.params
  hoist function.body
  lowerStmts function.body
  returnValue (← undefined)
  placeSharedExit
  let s ← get
  report (.lowered function.name s.code.size s.temps.size)

end Lower

/-! ### Results -/

/-- Fills the table of the dispatch with which a resumable body starts. -/
def fillDispatch (points : List ResumePoint) : List Instr → List Instr
  | .dispatch _ start :: rest => .dispatch (points.map fun p => ⟨p.state, p.label⟩) start :: rest
  | code => code

/-- The slots that were stored exactly once, ascending. -/
def Session.singleAssignment (s : Session) : List Slot :=
  s.slots.toList.zipIdx.filterMap fun (entry, index) =>
    if entry.stores = 1 then some ⟨index⟩ else none

/-- The body that a finished session describes. -/
def Session.toBody (s : Session) (function : Function) : Body where
  name := function.name
  isAsync := function.isAsync
  isGenerator := function.isGenerator
  code :=
    if function.isResumable then fillDispatch s.resumePoints.toList s.code.toList
    else s.code.toList
  temps := s.temps.map some
  slots := s.slots.map (·.info)
  singleAssignment := s.singleAssignment
  labelCount := s.labelCount
  regions := s.regions.toList
  resumePoints := s.resumePoints.toList
  stateFields := s.stateFields.toList
  epilogue := s.epilogue

/-- The surroundings of a function body; none if the function's scope dangles. A module's top level
and a resumable function always have a capture object of their own. -/
def Context.ofFunction? (tree : ScopeTree) (registry : Registry) (options : Options)
    (function : Function) : Option Context := do
  let chain ← tree.chainLayout? function.scope
  let captured ← tree.capturedBindings? function.scope
  let scope ← tree.scope? function.scope
  return {
    function, tree, registry, chain
    fixedArity := options.fixedArity
    leafName := scope.name
    ownsLeaf := function.kind == .main || function.isResumable || !captured.isEmpty }

/-- What became of a function, and what was reported on the way. -/
structure Outcome where
  /-- The body, or why there is none. -/
  result : Except Halt Body
  /-- The events, in order. -/
  events : List Event

/-- Lowers a function, without any pass over the result. -/
def Function.lower (function : Function) (tree : ScopeTree) (registry : Registry)
    (options : Options) : Outcome :=
  match Context.ofFunction? tree registry options function with
  | none => ⟨.error .dangling, []⟩
  | some ctx =>
    match Lower.wholeFunction ctx {} with
    | .ok _ s => ⟨.ok (s.toBody function), s.events.toList⟩
    | .error halt s => ⟨.error halt, s.events.toList⟩

end ScriptLowering
