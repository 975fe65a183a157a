/-!
# JSON values

Trees of named fields and lists, as JSON writes them. Numbers are integers: the records of this
library hold no others. A field that an object lacks and an element beyond the end of an array count
as null.
-/

namespace ScriptLowering.Json

/-- A JSON value. -/
inductive Value where
  | null
  | bool (value : Bool)
  | integer (value : Int)
  | string (value : String)
  | array (items : List Value)
  | object (fields : List (String × Value))
deriving Inhabited

namespace Value

/-! ### Writing -/

/-- A natural number. -/
def ofNat (n : Nat) : Value :=
  .integer n

/-- An optional value; null if absent. -/
def ofOption {α : Type} (write : α → Value) : Option α → Value
  | none => .null
  | some a => write a

/-- An array. -/
def ofList {α : Type} (write : α → Value) (items : List α) : Value :=
  .array (items.map write)

/-- A variant with fields: an object whose only field is named by the variant. -/
def tagged (tag : String) (payload : Value) : Value :=
  .object [(tag, payload)]

/-! ### Reading -/

/-- The field of an object. -/
def field (v : Value) (name : String) : Value :=
  match v with
  | .object fields => (fields.lookup name).getD .null
  | _ => .null

/-- The element of an array. -/
def item (v : Value) (position : Nat) : Value :=
  match v with
  | .array items => items[position]?.getD .null
  | _ => .null

/-- A natural number. -/
def nat? : Value → Option Nat
  | .integer n => n.toNat?
  | _ => none

/-- A text. -/
def text? : Value → Option String
  | .string s => some s
  | _ => none

/-- A boolean; null counts as false. -/
def bool? : Value → Option Bool
  | .null => some false
  | .bool b => some b
  | _ => none

/-- The elements of an array; null counts as an empty one. -/
def items? : Value → Option (List Value)
  | .null => some []
  | .array items => some items
  | _ => none

/-- A value that may be absent. -/
def optional? {α : Type} (read : Value → Option α) : Value → Option (Option α)
  | .null => some none
  | v => (read v).map some

/-- The elements of an array, each read the same way. -/
def list? {α : Type} (read : Value → Option α) (v : Value) : Option (List α) := do
  (← v.items?).mapM read

/-- A natural number; null counts as zero. -/
def natOrZero? : Value → Option Nat
  | .null => some 0
  | v => v.nat?

/-- The name and the fields of a variant; one without fields is just its name. -/
def variant? : Value → Option (String × Value)
  | .string tag => some (tag, .null)
  | .object [(tag, payload)] => some (tag, payload)
  | _ => none

end Value

end ScriptLowering.Json
