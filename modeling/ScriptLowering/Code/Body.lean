import ScriptLowering.Code.Instr

/-!
# Lowered bodies

Everything that code emission needs of one function: the instruction list and the tables about its
temps, slots, protected regions and resume points. A body may also be written by hand, so nothing is
assumed about how its tables and instructions fit together; look-ups outside a table have a fixed
answer.
-/

namespace ScriptLowering

/-- A variable slot. -/
structure SlotInfo where
  /-- The identifier it holds, or a name with a dollar sign for a slot of the lowering's own. -/
  name : String
  /-- How its values are represented. -/
  storage : Storage
  /-- The binding it holds. -/
  binding : Option BindingId
deriving DecidableEq, Inhabited

/-- The slot belongs to no binding. -/
def SlotInfo.isAnonymous (s : SlotInfo) : Bool :=
  s.binding.isNone

/-- What the handler of a protected region is for. -/
inductive RegionKind where
  | catchHandler
  | finallyHandler
deriving DecidableEq, Inhabited

/-- A protected region: a range of instructions and the handler that guards it, delimited by
labels. -/
structure ExceptionRegion where
  /-- What the handler is for. -/
  kind : RegionKind
  /-- Start of the protected range. -/
  tryStart : Label
  /-- End of the protected range. -/
  tryEnd : Label
  /-- Start of the handler. -/
  handlerStart : Label
  /-- End of the handler. -/
  handlerEnd : Label
  /-- The class of the exceptions that are caught; absent when all are. -/
  catchType : Option String := none
deriving DecidableEq, Inhabited

/-- Why a resume state exists. -/
inductive ResumeKind where
  | await
  | yield
  /-- Re-entry after a rejected `await`. -/
  | reject
deriving DecidableEq, Inhabited

/-- A place where a resumable function can be re-entered. -/
structure ResumePoint where
  /-- The resume state that leads here. -/
  state : Nat
  /-- The label where execution continues. -/
  label : Label
  /-- The temp that re-entry defines. -/
  result : Option Temp
  /-- Why the state exists. -/
  kind : ResumeKind
deriving DecidableEq, Inhabited

/-- The exit shared by the returns that leave a protected region. -/
structure ReturnEpilogue where
  /-- Where it starts. -/
  label : Label
  /-- The slot that holds the value to return. -/
  slot : Slot
deriving DecidableEq, Inhabited

/-- A lowered function body. -/
structure Body where
  /-- Name of the function. -/
  name : String
  /-- An async function. -/
  isAsync : Bool := false
  /-- A generator. -/
  isGenerator : Bool := false
  /-- The instructions. -/
  code : List Instr := []
  /-- The storage of each temp. -/
  temps : Array (Option Storage) := #[]
  /-- The slots. -/
  slots : Array SlotInfo := #[]
  /-- The slots that are stored exactly once, ascending. -/
  singleAssignment : List Slot := []
  /-- Number of labels allocated. -/
  labelCount : Nat := 0
  /-- The protected regions, inner ones first. -/
  regions : List ExceptionRegion := []
  /-- The resume points, in order of their states. -/
  resumePoints : List ResumePoint := []
  /-- The fields that the capture object of a resumable function has beside its bindings. -/
  stateFields : List String := []
  /-- The shared exit, if some return needs it. -/
  epilogue : Option ReturnEpilogue := none
deriving DecidableEq, Inhabited

namespace Body

/-- The function can be suspended. -/
def isResumable (b : Body) : Bool :=
  b.isAsync || b.isGenerator

/-- The storage of a temp, unknown if none is recorded. -/
def storageOf (b : Body) (t : Temp) : Storage :=
  (b.temps[t.index]?.bind id).getD .unknown

/-- The data of a slot. -/
def slot? (b : Body) (s : Slot) : Option SlotInfo :=
  b.slots[s.index]?

/-- Of a table sorted by label, the last entry of each label. -/
def lastEntries : List (Label × Nat) → List (Label × Nat)
  | first :: second :: rest =>
    if first.1 = second.1 then lastEntries (second :: rest)
    else first :: lastEntries (second :: rest)
  | rest => rest

/-- The position of each label, ascending by label. A label that is placed twice counts where it is
placed last. -/
def labelPositions (b : Body) : List (Label × Nat) :=
  let placed := b.code.zipIdx.filterMap fun (instr, position) =>
    match instr with
    | .label label => some (label, position)
    | _ => none
  lastEntries (placed.mergeSort fun a c => a.1.index ≤ c.1.index)

/-- How often each temp of the table is read. -/
def useCounts (b : Body) : Array Nat :=
  b.code.foldl
    (fun counts instr => instr.uses.foldl (fun counts t => counts.modify t.index (· + 1)) counts)
    (Array.replicate b.temps.size 0)

end Body

/-- The slots in ascending order, each once. -/
def Slot.sortedSet (slots : List Slot) : List Slot :=
  slots.mergeSort (fun a c => a.index ≤ c.index) |>.eraseDups

end ScriptLowering
