/-!
# Storage descriptors

A value of the target machine has a type and a representation. Doubles and booleans can be held
unboxed; everything else, and a boxed double or boolean, is object-shaped: one machine word that the
runtime can inspect. Every temp and every slot of a lowered body carries a `Storage`, and each
emitted instruction chooses its form, and the coercions in front of it, by the storage of its
operands.
-/

namespace ScriptLowering

/-- The type of a value, as far as it is known before the program runs. -/
inductive ValueType where
  /-- Any JavaScript value. -/
  | object
  | double
  | bool
  | string
  /-- A JavaScript array. -/
  | array
  /-- A function bound to its scope chain. -/
  | function
  /-- A scope-chain array, as passed to a call. -/
  | scopes
  /-- The capture object of the named scope. -/
  | scope (name : String)
  /-- An instance of a user-defined class. -/
  | userClass (name : String)
  | iterator
deriving DecidableEq, Inhabited

/-- Doubles and booleans have an unboxed representation. -/
def ValueType.isPrimitive : ValueType → Bool
  | .double | .bool => true
  | _ => false

/-- The type as shown in a listing. -/
def ValueType.text : ValueType → String
  | .object => "object"
  | .double => "double"
  | .bool => "bool"
  | .string => "string"
  | .array => "array"
  | .function => "function"
  | .scopes => "scopes"
  | .scope name => "scope<" ++ name ++ ">"
  | .userClass name => "class<" ++ name ++ ">"
  | .iterator => "iterator"

/-- How a value is represented. -/
inductive Representation where
  /-- A bare machine double or boolean. -/
  | unboxed
  /-- A primitive wrapped in an object. -/
  | boxed
  /-- A reference to an object. -/
  | reference
  /-- Nothing is known. -/
  | unknown
deriving DecidableEq, Inhabited

/-- The storage descriptor of a temp or slot. -/
structure Storage where
  /-- How the value is represented. -/
  kind : Representation
  /-- The type of the value. -/
  ty : ValueType
deriving DecidableEq, Inhabited

namespace Storage

/-- The storage of a temp about which nothing is recorded. -/
def unknown : Storage := ⟨.unknown, .object⟩

/-- A bare value of a primitive type. -/
def unboxed (ty : ValueType) : Storage := ⟨.unboxed, ty⟩

/-- A wrapped value of a primitive type. -/
def boxed (ty : ValueType) : Storage := ⟨.boxed, ty⟩

/-- A reference to a value of the given type. -/
def reference (ty : ValueType) : Storage := ⟨.reference, ty⟩

/-- A reference to an arbitrary JavaScript value. -/
def object : Storage := reference .object

/-- An unboxed double. -/
def double : Storage := unboxed .double

/-- An unboxed boolean. -/
def bool : Storage := unboxed .bool

/-- A reference to a string. -/
def string : Storage := reference .string

/-- A reference to a JavaScript array. -/
def array : Storage := reference .array

/-- The storage of a variable or field of a statically known type: unboxed where the type allows. -/
def ofType (ty : ValueType) : Storage :=
  if ty.isPrimitive then unboxed ty else reference ty

/-- The value is a bare primitive. -/
def isUnboxed (s : Storage) : Bool := s.kind == .unboxed

/-- The value is a bare double. -/
def isUnboxedDouble (s : Storage) : Bool := s.isUnboxed && s.ty == .double

/-- The value is a bare boolean. -/
def isUnboxedBool (s : Storage) : Bool := s.isUnboxed && s.ty == .bool

/-- The value is a reference to a string. -/
def isString (s : Storage) : Bool := s.kind == .reference && s.ty == .string

/-- The value is a reference to an array. -/
def isArray (s : Storage) : Bool := s.kind == .reference && s.ty == .array

/-- The value is an object to the runtime: boxed or a reference. -/
def isObjectShaped (s : Storage) : Bool := s.kind == .boxed || s.kind == .reference

/-- The user class of which the value is known to be an instance. -/
def className? (s : Storage) : Option String :=
  match s.kind, s.ty with
  | .reference, .userClass name => some name
  | _, _ => none

/-- The storage as shown in a listing. -/
def text (s : Storage) : String :=
  match s.kind with
  | .unboxed => s.ty.text
  | .boxed => "box<" ++ s.ty.text ++ ">"
  | .reference => "ref<" ++ s.ty.text ++ ">"
  | .unknown => "?"

end Storage

end ScriptLowering
