import ScriptLowering.Code.Body

/-!
# Type normalization

Four local improvements of a lowered body, in this order:

* the result of a construction is a reference to the class;
* a value that is boxed only to be stored into a field of its own type is stored unboxed;
* turning an array into an array is a copy;
* an anonymous slot that is never loaded is dropped, along with the stores into it.

Each step gives the changed body and the number of changes.
-/

namespace ScriptLowering

namespace TypeNormalization

/-! ### Constructions -/

/-- Records the type of a constructed object, if the temp is in the table and not typed so
already. -/
def typeConstruction (state : Array (Option Storage) × Nat) (instr : Instr) :
    Array (Option Storage) × Nat :=
  match instr with
  | .define result (.newClass className _) =>
    let typed := some (Storage.reference (.userClass className))
    match state.1[result.index]? with
    | none => state
    | some entry =>
      if entry = typed then state else (state.1.setIfInBounds result.index typed, state.2 + 1)
  | _ => state

/-- Types the results of constructions. -/
def typeConstructions (b : Body) : Body × Nat :=
  let (temps, count) := b.code.foldl typeConstruction (b.temps, 0)
  ({ b with temps }, count)

/-! ### Field stores -/

/-- Takes up one instruction behind the code so far. A store of a value that the instruction before
boxes for this one use takes the bare value, and the boxing goes. -/
def unboxFieldStore (b : Body) (uses : Array Nat) (state : Array Instr × Nat) (instr : Instr) :
    Array Instr × Nat :=
  match instr, state.1.back? with
  | .perform (.storeField receiver className field (some ty) value),
    some (.define boxed (.coerce .toObject source)) =>
    let bare := b.storageOf source
    if bare.isUnboxed && uses[boxed.index]? == some 1 && value == boxed
        && Storage.ofType ty == bare then
      (state.1.pop.push (.perform (.storeField receiver className field (some ty) source)),
        state.2 + 1)
    else (state.1.push instr, state.2)
  | _, _ => (state.1.push instr, state.2)

/-- Stores bare values into typed fields. -/
def unboxFieldStores (b : Body) : Body × Nat :=
  let (code, count) := b.code.foldl (unboxFieldStore b b.useCounts) (#[], 0)
  ({ b with code := code.toList }, count)

/-! ### Arrays -/

/-- The copy that takes the place of an instruction that turns an array into an array. -/
def arrayCopy? (b : Body) : Instr → Option Instr
  | .define result (.normalizeIterable source) =>
    if (b.storageOf source).isArray then some (.define result (.copy source)) else none
  | _ => none

/-- Copies arrays. -/
def copyArrays (b : Body) : Body × Nat :=
  ({ b with code := b.code.map fun instr => (arrayCopy? b instr).getD instr },
    b.code.countP fun instr => (arrayCopy? b instr).isSome)

/-! ### Slots -/

/-- The slots that some load or the shared exit reads. -/
def loadedSlots (b : Body) : Array Bool :=
  let loaded := b.code.foldl
    (fun loaded instr => match instr with
      | .define _ (.loadSlot slot) => loaded.setIfInBounds slot.index true
      | _ => loaded)
    (Array.replicate b.slots.size false)
  match b.epilogue with
  | none => loaded
  | some epilogue => loaded.setIfInBounds epilogue.slot.index true

/-- For each slot, whether it is kept. -/
def keptSlots (b : Body) : Array Bool :=
  (b.slots.zip (loadedSlots b)).map fun (info, loaded) => !info.isAnonymous || loaded

/-- The new number of each kept slot. -/
def slotNumbers (kept : Array Bool) : Array (Option Slot) :=
  (kept.foldl
    (fun (numbers, next) isKept =>
      if isKept then (numbers.push (some ⟨next⟩), next + 1) else (numbers.push none, next))
    (#[], 0)).1

/-- An instruction with its slot renumbered; none if the slot has no number. -/
def renumber? (number? : Slot → Option Slot) : Instr → Option Instr
  | .define result (.loadSlot slot) => (number? slot).map fun s => .define result (.loadSlot s)
  | .perform (.storeSlot slot value) =>
    (number? slot).map fun s => .perform (.storeSlot s value)
  | instr => some instr

/-- Drops the slots that are not kept. A body without such slots stays as it is. -/
def compactSlots (b : Body) : Body × Nat :=
  let kept := keptSlots b
  let dropped := kept.toList.countP (!·)
  if dropped = 0 then (b, 0)
  else
    let numbers := slotNumbers kept
    let number? : Slot → Option Slot := fun slot => numbers[slot.index]?.join
    ({ b with
        code := b.code.filterMap (renumber? number?)
        singleAssignment := b.singleAssignment.filterMap number?
        epilogue := b.epilogue.map fun e => { e with slot := (number? e.slot).getD e.slot }
        slots := (b.slots.zip kept).filterMap fun (info, isKept) =>
          if isKept then some info else none },
      dropped)

end TypeNormalization

open TypeNormalization in
/-- Carries out the four improvements; also gives the number of changes. -/
def Body.normalizeTypes (b : Body) : Body × Nat :=
  let (b, constructions) := typeConstructions b
  let (b, stores) := unboxFieldStores b
  let (b, copies) := copyArrays b
  let (b, slots) := compactSlots b
  (b, constructions + stores + copies + slots)

end ScriptLowering
