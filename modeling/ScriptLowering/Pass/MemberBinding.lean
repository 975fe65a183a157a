import ScriptLowering.Code.Body
import ScriptLowering.Registry

/-!
# Early binding of member calls

A member call whose receiver is an instance of a known class is bound early, if only one instance
method of the registry has its name and number of parameters and the receiver's class is, or
descends from, the class that declares it. If the receiver's class is the declaring class itself the
call is direct, otherwise it is guarded.

Receiver classes are known from the types of temps and from constructions. They flow through copies,
and through slots that are stored exactly once, from the store to the loads behind it.
-/

namespace ScriptLowering

namespace MemberBinding

/-! ### Receiver classes -/

/-- What is known about classes at some point of the code. -/
structure Classes where
  /-- The class of each temp. -/
  temps : Array (Option String)
  /-- The classes of slots, the latest found first. -/
  slots : List (Slot × String) := []

/-- The class of a temp. -/
def Classes.of? (c : Classes) (t : Temp) : Option String :=
  c.temps[t.index]?.join

/-- Records the class of a temp. -/
def Classes.note (c : Classes) (t : Temp) (className : String) : Classes :=
  { c with temps := c.temps.setIfInBounds t.index (some className) }

/-- What is known behind an instruction. -/
def Classes.step (single : List Slot) (c : Classes) : Instr → Classes
  | .define result (.newClass className _) => c.note result className
  | .define result (.copy source) =>
    match c.of? source with
    | none => c
    | some className => c.note result className
  | .perform (.storeSlot slot value) =>
    match single.contains slot, c.of? value with
    | true, some className => { c with slots := (slot, className) :: c.slots }
    | _, _ => c
  | .define result (.loadSlot slot) =>
    match c.slots.lookup slot with
    | none => c
    | some className => c.note result className
  | _ => c

/-- What is known at the end of the body. -/
def receiverClasses (b : Body) : Classes :=
  b.code.foldl (Classes.step b.singleAssignment)
    { temps := b.temps.map fun storage => storage.bind Storage.className? }

/-! ### Argument arrays -/

/-- For each temp, where it is last defined as an argument array, and the elements. -/
def packings (b : Body) : Array (Option (Nat × List Temp)) :=
  b.code.zipIdx.foldl
    (fun table (instr, position) => match instr with
      | .define result (.packArguments elements) =>
        table.setIfInBounds result.index (some (position, elements))
      | _ => table)
    (Array.replicate b.temps.size none)

/-! ### Binding -/

/-- What the pass knows about the body and its surroundings. -/
structure Facts where
  /-- The user classes. -/
  registry : Registry
  /-- The receiver classes. -/
  classes : Classes
  /-- How often each temp is read. -/
  uses : Array Nat
  /-- The argument arrays. -/
  packings : Array (Option (Nat × List Temp))

/-- A call that is bound early. -/
structure Bound where
  /-- The call. -/
  call : Instr
  /-- Where the argument array is built that the call no longer needs. -/
  packing : Option Nat := none

/-- The early-bound form of a member call, if the registry determines the method. -/
def bindCall? (facts : Facts) (result receiver : Temp) (name : String) (args : List Temp) :
    Option Instr := do
  let className ← facts.classes.of? receiver
  let (declaring, method) ← facts.registry.uniqueInstanceMethod? name args.length
  if facts.registry.isSubclassOf className declaring.name then
    some (.define result (.callTyped (declaring.name != className) declaring.name name
      method.callable receiver args))
  else none

/-- The early-bound form of an instruction. An argument array is taken apart only if the call alone
reads it. -/
def bind? (facts : Facts) : Instr → Option Bound
  | .define result (.callMemberFixed receiver name args) =>
    (bindCall? facts result receiver name args).map fun call => { call }
  | .define result (.callMember receiver name packed) => do
    let (position, args) ← facts.packings[packed.index]?.join
    if facts.uses[packed.index]? == some 1 then
      let call ← bindCall? facts result receiver name args
      return { call, packing := some position }
    else none
  | _ => none

/-- For each position, whether the argument array built there is no longer needed. -/
def takenApart (length : Nat) (bounds : List (Option Bound)) : Array Bool :=
  bounds.foldl
    (fun flags bound => match bound with
      | some { packing := some position, .. } => flags.setIfInBounds position true
      | _ => flags)
    (Array.replicate length false)

end MemberBinding

open MemberBinding in
/-- Binds member calls early; also gives their number. -/
def Body.bindMemberCalls (b : Body) (registry : Registry) : Body × Nat :=
  let facts : Facts :=
    { registry, classes := receiverClasses b, uses := b.useCounts, packings := packings b }
  let bounds := b.code.map (bind? facts)
  let gone := takenApart b.code.length bounds
  let code := (b.code.zip bounds).zipIdx.filterMap fun ((instr, bound), position) =>
    if gone[position]? == some true then none
    else some (match bound with
      | none => instr
      | some bound => bound.call)
  ({ b with code }, bounds.countP Option.isSome)

end ScriptLowering
