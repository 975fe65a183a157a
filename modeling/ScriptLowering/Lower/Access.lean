import ScriptLowering.Lower.Placement

/-!
# Members, items and assignment targets

Reading and writing properties. A declared field of an instance of a known class is accessed
directly, the length of an array or string and the elements of an array have instructions of their
own, and everything else is left to the runtime.
-/

namespace ScriptLowering.Lower

/-- The declared field that a property of the value is known to be, with the class it is reached
by. -/
def declaredField? (object : Temp) (name : String) : Lower (Option (String × FieldInfo)) := do
  match (← storageOf object).className? with
  | none => return none
  | some className =>
    return ((← read).registry.field? className name).map (className, ·)

/-- Reads a property. -/
def getProperty (object : Temp) (name : String) : Lower Temp := do
  match ← declaredField? object name with
  | some (className, field) =>
    define ((field.ty.map Storage.ofType).getD .object) (.loadField object className name)
  | none =>
    let storage ← storageOf object
    if name = "length" && (storage.isArray || storage.isString) then
      define .double (.getLength object)
    else
      let object ← asObject object
      define .object (.getProperty object name)

/-- Writes a property. -/
def setProperty (object : Temp) (name : String) (value : Temp) : Lower Unit := do
  match ← declaredField? object name with
  | some (className, field) =>
    let value ← asObject value
    perform (.storeField object className name field.ty value)
  | none =>
    let object ← asObject object
    let value ← asObject value
    perform (.setProperty object name value)

/-- Reads an item. -/
def getItem (object key : Temp) : Lower Temp := do
  if (← storageOf object).isArray && (← storageOf key).isUnboxedDouble then
    define .object (.getElement object key)
  else
    let object ← asObject object
    let key ← asObject key
    define .object (.getItem object key)

/-- Writes an item. -/
def setItem (object key value : Temp) : Lower Unit := do
  let object ← asObject object
  let key ← asObject key
  let value ← asObject value
  perform (.setItem object key value)

/-- The value of `access`, or `undefined` if the object is null or undefined. -/
def optionally (object : Temp) (access : Lower Temp) : Lower Temp := do
  let carrier ← joinCarrier "optional" .object
  let absent ← freshLabel
  let finish ← freshLabel
  let value ← asObject object
  let nullish ← define .bool (.isNullish value)
  branchIf true nullish absent
  storeCarrier carrier (← access)
  branch finish
  place absent
  storeCarrier carrier (← undefined)
  place finish
  loadCarrier carrier

/-! ### Assignment targets -/

/-- An assignment target whose parts are evaluated. -/
inductive Target where
  | binding (binding : BindingId)
  | property (object : Temp) (name : String)
  | item (object key : Temp)
deriving DecidableEq, Inhabited

/-- The current value of a target. -/
def readTarget : Target → Lower Temp
  | .binding binding => loadBinding binding
  | .property object name => getProperty object name
  | .item object key => getItem object key

/-- Assigns to a target. -/
def writeTarget (target : Target) (value : Temp) : Lower Unit :=
  match target with
  | .binding binding => assignBinding binding value
  | .property object name => setProperty object name value
  | .item object key => setItem object key value

end ScriptLowering.Lower
