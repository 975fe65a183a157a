import ScriptLowering.Code.Body
import ScriptLowering.Event
import ScriptLowering.Options
import ScriptLowering.Registry
import ScriptLowering.Scope.Capture
import ScriptLowering.Source.Stmt

/-!
# Lowering sessions

The lowering of one function body is a computation in `Lower`. What surrounds the code being lowered
is its `Context`: the function, the module it belongs to, and the loops, protected regions and block
capture objects that are open at this point. A context is only ever extended for the code inside, so
it is read and never written. What the lowering produces is its `Session`: instructions and tables,
which only grow.

A lowering that cannot go on halts, either because the body is declined or because it uses a scope
or binding that the tree does not have, or a temp that is not in the table. The session is kept,
since it holds the events reported so far.
-/

namespace ScriptLowering

/-! ### Context -/

/-- Where a carrier keeps its value. -/
inductive CarrierPlace where
  | slot (slot : Slot)
  /-- A field of the capture object of a resumable function. -/
  | stateField (field : FieldRef)
deriving DecidableEq, Inhabited

/-- A place for a value that must outlive the temp that produced it: where the branches of a
conditional expression join, the state of a loop, the capture object of a block. -/
structure Carrier where
  /-- Where the value is kept. -/
  place : CarrierPlace
  /-- How the value is represented. -/
  storage : Storage
deriving DecidableEq, Inhabited

/-- The state fields in which a routed `try` keeps how its parts were left. -/
structure PendingFields where
  /-- The exception on its way. -/
  exception : String
  /-- Whether an exception is to be raised again behind the finally block. -/
  hasException : String
  /-- The value of a return on its way. -/
  returnValue : String
  /-- Whether a return is to be continued behind the finally block. -/
  hasReturn : String
deriving DecidableEq, Inhabited

/-- The finally block of a routed `try`. -/
structure FinallyRoute where
  /-- Where the block starts. -/
  entry : Label
  /-- Where what is pending is taken up again. -/
  exit : Label
  /-- The code being lowered is the finally block itself. -/
  isInside : Bool
deriving DecidableEq, Inhabited

/-- A `try` around a suspend point. Exceptions and returns are routed through state fields and
branches, because no protected region can span a suspension. -/
structure Route where
  /-- Where a thrown exception or a rejected `await` continues. -/
  throwLabel : Label
  /-- The resume state that leads there, in an async function. -/
  throwState : Option Nat
  /-- The region's state fields. -/
  fields : PendingFields
  /-- The finally block, if there is one. -/
  finallyRoute : Option FinallyRoute
deriving DecidableEq, Inhabited

/-- Something around the code being lowered that jumps, returns and exceptions have to respect. -/
inductive Frame where
  /-- A loop: where a break and where a continue lead, and the loop's label. -/
  | loop (exit next : Label) (name : Option String)
  | switch (exit : Label)
  /-- A labeled statement that is not a loop; only a break that names it leaves it. -/
  | labeled (exit : Label) (name : String)
  /-- The protected range or the catch handler of a region. -/
  | guarded
  /-- The finally handler of a region. -/
  | finallyHandler
  | routed (route : Route)
deriving DecidableEq, Inhabited

/-- What surrounds the code being lowered. -/
structure Context where
  /-- The function being lowered. -/
  function : Function
  /-- The scopes of the module. -/
  tree : ScopeTree
  /-- The user classes. -/
  registry : Registry
  /-- Calls with at most this many plain arguments use the forms of fixed arity. -/
  fixedArity : Nat
  /-- Name of the function's own scope. -/
  leafName : String
  /-- The scopes whose capture objects the function receives, outermost first. -/
  chain : List ScopeId
  /-- The function has a capture object of its own. -/
  ownsLeaf : Bool
  /-- The blocks with a capture object that are open here, innermost first. -/
  blocks : List (ScopeId × Carrier) := []
  /-- The loops, switches, labels and regions that are open here, innermost first. -/
  frames : List Frame := []

/-- The function can be suspended. -/
def Context.isResumable (ctx : Context) : Bool :=
  ctx.function.isResumable

/-- The scope chain of a resumable function holds its own capture object in front. -/
def Context.chainShift (ctx : Context) : Nat :=
  if ctx.isResumable then 1 else 0

/-! ### Session -/

/-- Where a binding lives. -/
inductive Placement where
  /-- An argument of a function that is not resumable. -/
  | argument (index : Nat)
  | slot (slot : Slot)
  /-- A field of the function's own capture object. -/
  | leafField (field : FieldRef)
  /-- A field of a block's capture object. -/
  | blockField (scope : ScopeId) (field : FieldRef)
  /-- A field of an element of the received scope chain. -/
  | parentField (index : Nat) (field : FieldRef)
deriving DecidableEq, Inhabited

/-- A slot and the number of stores into it. -/
structure SlotEntry where
  /-- The slot. -/
  info : SlotInfo
  /-- How many stores into it were emitted. -/
  stores : Nat := 0
deriving DecidableEq, Inhabited

/-- What the lowering of a body has produced so far. -/
structure Session where
  /-- The instructions. -/
  code : Array Instr := #[]
  /-- The storage of each temp. -/
  temps : Array Storage := #[]
  /-- The slots. -/
  slots : Array SlotEntry := #[]
  /-- Number of labels allocated. -/
  labelCount : Nat := 0
  /-- The protected regions that are complete. -/
  regions : Array ExceptionRegion := #[]
  /-- The resume points; the one at position `i` has the resume state `i + 1`. -/
  resumePoints : Array ResumePoint := #[]
  /-- The state fields that are in use. -/
  stateFields : Array String := #[]
  /-- The shared exit, once a return needs it. -/
  epilogue : Option ReturnEpilogue := none
  /-- Where the bindings live that were used so far. -/
  placements : List (BindingId × Placement) := []
  /-- The function declarations that already took effect. -/
  hoisted : List BindingId := []
  /-- A super call was lowered. -/
  superCalled : Bool := false
  /-- Number of state fields allocated for carriers. -/
  carrierCount : Nat := 0
  /-- Number of routed `try` statements. -/
  routedCount : Nat := 0
  /-- What was reported. -/
  events : Array Event := #[]
deriving DecidableEq, Inhabited

/-- Why a lowering stops early. -/
inductive Halt where
  | declined (reason : Decline)
  /-- A scope or binding was used that the tree does not have, or a temp that the table does not
  have. -/
  | dangling
deriving DecidableEq, Inhabited

/-- A step of the lowering of a body. -/
abbrev Lower := ReaderT Context (EStateM Halt Session)

namespace Lower

/-! ### Halting and reporting -/

/-- Reports an event. -/
def report (event : Event) : Lower Unit :=
  modify fun s => { s with events := s.events.push event }

/-- Declines the body. -/
def decline {α : Type} (reason : Decline) : Lower α := do
  report (.declined reason)
  throw (.declined reason)

/-- The answer to a look-up that fails on a dangling identifier. -/
def require {α : Type} : Option α → Lower α
  | some a => pure a
  | none => throw .dangling

/-- The data of a scope. -/
def requireScope (id : ScopeId) : Lower Scope := do
  require ((← read).tree.scope? id)

/-- The data of a binding. -/
def requireBinding (id : BindingId) : Lower Binding := do
  require ((← read).tree.binding? id)

/-- In a resumable function, declines expressions that may suspend while a temp is held. -/
def forbidSuspend (exprs : List Expr) : Lower Unit := do
  if (← read).isResumable && Expr.anySuspends exprs then decline .operandAfterSuspend

/-! ### Surroundings -/

/-- Lowers code inside one more frame. -/
def within {α : Type} (frame : Frame) (code : Lower α) : Lower α :=
  fun ctx => code { ctx with frames := frame :: ctx.frames }

/-- Lowers code inside a block whose capture object is in the carrier. -/
def withinBlock {α : Type} (scope : ScopeId) (carrier : Carrier) (code : Lower α) : Lower α :=
  fun ctx => code { ctx with blocks := (scope, carrier) :: ctx.blocks }

/-! ### Emission -/

/-- Appends an instruction. -/
def emit (instr : Instr) : Lower Unit :=
  modify fun s => { s with code := s.code.push instr }

/-- Appends an effect. -/
def perform (effect : Effect) : Lower Unit :=
  emit (.perform effect)

/-- Allocates a temp. -/
def freshTemp (storage : Storage) : Lower Temp :=
  modifyGet fun s => (⟨s.temps.size⟩, { s with temps := s.temps.push storage })

/-- Defines a new temp as the result of an operation. -/
def define (storage : Storage) (op : Operation) : Lower Temp := do
  let result ← freshTemp storage
  emit (.define result op)
  return result

/-- The storage of a temp. -/
def storageOf (t : Temp) : Lower Storage := do
  return (← get).temps[t.index]?.getD .unknown

/-- Allocates a label. -/
def freshLabel : Lower Label :=
  modifyGet fun s => (⟨s.labelCount⟩, { s with labelCount := s.labelCount + 1 })

/-- Places a label here. -/
def place (label : Label) : Lower Unit :=
  emit (.label label)

/-- Jumps. -/
def branch (target : Label) : Lower Unit :=
  emit (.branch target)

/-- Jumps when the condition has the expected value. -/
def branchIf (expected : Bool) (condition : Temp) (target : Label) : Lower Unit :=
  emit (.branchIf expected condition target)

/-- Enters a protected region into the table. -/
def addRegion (region : ExceptionRegion) : Lower Unit :=
  modify fun s => { s with regions := s.regions.push region }

/-! ### Constants -/

/-- A number. -/
def number (value : Binary64) : Lower Temp :=
  define .double (.literal (.number value))

/-- A boolean. -/
def bool (value : Bool) : Lower Temp :=
  define .bool (.literal (.bool value))

/-- A string. -/
def string (value : String) : Lower Temp :=
  define .string (.literal (.string value))

/-- The value `null`. -/
def null : Lower Temp :=
  define .object (.literal .null)

/-- The value `undefined`. -/
def undefined : Lower Temp :=
  define .object (.literal .undefined)

end Lower

end ScriptLowering
