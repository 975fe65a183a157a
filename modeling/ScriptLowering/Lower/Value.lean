import ScriptLowering.Lower.Session
import ScriptLowering.Number.Decimal

/-!
# Representations, slots and carriers

How a value gets from one representation into another, and where it is kept when a temp will not do.

A coercion is emitted only if the value is not yet in the wanted form. Converting the result of a
dynamic addition to a number is fused with the addition when nothing stands between the two.

A *carrier* is a slot, or in a resumable function a field of the capture object if the value has to
survive a suspension.
-/

namespace ScriptLowering.Lower

/-! ### Coercions -/

/-- The value in an object-shaped form. -/
def asObject (value : Temp) : Lower Temp := do
  let storage ← storageOf value
  if storage.isObjectShaped then return value
  let boxed := if storage.isUnboxed then Storage.boxed storage.ty else .object
  define boxed (.coerce .toObject value)

/-- The operands of the dynamic addition that the last instruction defines `value` with. -/
def justAdded? (s : Session) (value : Temp) : Option (Temp × Temp) :=
  match s.code.back? with
  | some (.define result (.add left right)) => if result = value then some (left, right) else none
  | _ => none

/-- Replaces the dynamic addition that ends the code by an addition that yields a number. -/
def fuseAddition (value left right : Temp) (s : Session) : Session :=
  { s with
    code := s.code.pop.push (.define value (.addToNumber left right))
    temps := s.temps.setIfInBounds value.index .double }

/-- The value as an unboxed double. A fused addition changes the table of temps, which must have an
entry for the value. -/
def asNumber (value : Temp) : Lower Temp := do
  if (← storageOf value).isUnboxedDouble then return value
  match justAdded? (← get) value with
  | some (left, right) =>
    let _ ← require (← get).temps[value.index]?
    modify (fuseAddition value left right)
    return value
  | none => define .double (.coerce .toNumber value)

/-- The truth value as an unboxed boolean. -/
def asBoolean (value : Temp) : Lower Temp := do
  let storage ← storageOf value
  if storage.isUnboxedBool then return value
  define .bool (.coerce (if storage.isUnboxed then .toBoolean else .truthiness) value)

/-- The value as a string. -/
def asText (value : Temp) : Lower Temp := do
  if (← storageOf value).isString then return value
  define .string (.coerce .toText value)

/-- The value in the form that a place of the given storage holds. -/
def coerceTo (storage : Storage) (value : Temp) : Lower Temp :=
  if storage.isUnboxedDouble then asNumber value
  else if storage.isUnboxedBool then asBoolean value
  else asObject value

/-! ### Slots -/

/-- Allocates a slot. -/
def freshSlot (info : SlotInfo) : Lower Slot :=
  modifyGet fun s => (⟨s.slots.size⟩, { s with slots := s.slots.push { info } })

/-- The storage of a slot. -/
def slotStorage (slot : Slot) : Lower Storage := do
  return ((← get).slots[slot.index]?.map (·.info.storage)).getD .object

/-- Stores into a slot, in the slot's representation. -/
def storeSlot (slot : Slot) (value : Temp) : Lower Unit := do
  let value ← coerceTo (← slotStorage slot) value
  perform (.storeSlot slot value)
  modify fun s =>
    { s with slots := s.slots.modify slot.index fun e => { e with stores := e.stores + 1 } }

/-- Loads a slot. -/
def loadSlot (slot : Slot) : Lower Temp := do
  define (← slotStorage slot) (.loadSlot slot)

/-! ### State fields -/

/-- A field of the function's own capture object, put into use if it is new. -/
def stateField (name : String) : Lower FieldRef := do
  modify fun s =>
    if s.stateFields.contains name then s else { s with stateFields := s.stateFields.push name }
  return ⟨(← read).leafName, name⟩

/-- Loads a state field. -/
def loadState (name : String) (storage : Storage) : Lower Temp := do
  let field ← stateField name
  define storage (.loadLeafField field)

/-- Stores into a state field, in the representation at hand. -/
def storeState (name : String) (value : Temp) : Lower Unit := do
  let field ← stateField name
  perform (.storeLeafField field value)

/-- Stores a boolean into a state field. -/
def setFlag (name : String) (value : Bool) : Lower Unit := do
  storeState name (← bool value)

/-- Stores `null` into a state field. -/
def clearState (name : String) : Lower Unit := do
  storeState name (← null)

/-! ### Carriers -/

/-- A carrier for a value that no suspension comes across. -/
def joinCarrier (hint : String) (storage : Storage) : Lower Carrier := do
  let slot ← freshSlot { name := "$" ++ hint, storage, binding := none }
  return ⟨.slot slot, storage⟩

/-- A carrier for a value that may have to survive a suspension. -/
def durableCarrier (hint : String) (storage : Storage) : Lower Carrier := do
  if !(← read).isResumable then return ← joinCarrier hint storage
  modify fun s => { s with carrierCount := s.carrierCount + 1 }
  let field ← stateField ("$" ++ hint ++ toString (← get).carrierCount)
  return ⟨.stateField field, storage⟩

/-- Puts a value into a carrier. -/
def storeCarrier (carrier : Carrier) (value : Temp) : Lower Unit := do
  match carrier.place with
  | .slot slot => storeSlot slot value
  | .stateField field =>
    let value ← coerceTo carrier.storage value
    perform (.storeLeafField field value)

/-- Takes the value out of a carrier. -/
def loadCarrier (carrier : Carrier) : Lower Temp :=
  match carrier.place with
  | .slot slot => loadSlot slot
  | .stateField field => define carrier.storage (.loadLeafField field)

/-- Puts `value` into the carrier if it is not `undefined`, and the value of `default` if it is;
then takes it out again. -/
def valueOrDefault (value : Temp) (default : Lower Temp) : Lower Temp := do
  let carrier ← joinCarrier "default" .object
  let skip ← freshLabel
  let join ← freshLabel
  let isUndefined ← define .bool (.isUndefined value)
  branchIf false isUndefined skip
  storeCarrier carrier (← default)
  branch join
  place skip
  storeCarrier carrier value
  place join
  loadCarrier carrier

end ScriptLowering.Lower
