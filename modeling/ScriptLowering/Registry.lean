import ScriptLowering.Id
import ScriptLowering.Storage

/-!
# The class registry

The user-defined classes of a compilation: their declared fields, methods and constructors, and the
class each one extends. A class names its parent; a parent that is not registered ends the line of
descent.

`Registry.lineage` lists a class and its ancestors, nearest first, and every inherited member is the
first declaration along that list. Methods are told apart by name and number of parameters.
-/

namespace ScriptLowering

/-- A declared instance field. -/
structure FieldInfo where
  /-- Name of the field. -/
  name : String
  /-- The declared type, if one was proved. -/
  ty : Option ValueType
deriving DecidableEq, Inhabited

/-- A declared method. -/
structure MethodInfo where
  /-- Name of the method. -/
  name : String
  /-- Number of parameters. -/
  arity : Nat
  /-- A method of the class itself, not of its instances. -/
  isStatic : Bool
  /-- Every return statement returns `this`. -/
  returnsThis : Bool
  /-- The compiled method. -/
  callable : Callable
deriving DecidableEq, Inhabited

/-- A user-defined class. -/
structure ClassInfo where
  /-- Name of the class. -/
  name : String
  /-- The class it extends. -/
  parent : Option String := none
  /-- Declared fields, in order. -/
  fields : List FieldInfo := []
  /-- Declared methods, in order. -/
  methods : List MethodInfo := []
  /-- Number of constructor parameters. -/
  constructorArity : Nat := 0
deriving DecidableEq, Inhabited

namespace ClassInfo

/-- Declares one more instance field. -/
def addField (c : ClassInfo) (name : String) (ty : Option ValueType) : ClassInfo :=
  { c with fields := c.fields ++ [⟨name, ty⟩] }

/-- Declares one more instance method; its compiled form is named after class and method. -/
def addMethod (c : ClassInfo) (name : String) (arity : Nat) (returnsThis : Bool) : ClassInfo :=
  let callable : Callable := ⟨c.name ++ "." ++ name⟩
  { c with methods := c.methods ++ [⟨name, arity, false, returnsThis, callable⟩] }

/-- Declares one more static method. -/
def addStaticMethod (c : ClassInfo) (name : String) (arity : Nat) : ClassInfo :=
  let callable : Callable := ⟨c.name ++ ".static." ++ name⟩
  { c with methods := c.methods ++ [⟨name, arity, true, false, callable⟩] }

/-- The field of that name that the class itself declares. -/
def field? (c : ClassInfo) (name : String) : Option FieldInfo :=
  c.fields.find? (·.name == name)

/-- The instance method of that name and arity that the class itself declares. -/
def instanceMethod? (c : ClassInfo) (name : String) (arity : Nat) : Option MethodInfo :=
  c.methods.find? fun m => !m.isStatic && m.name == name && m.arity == arity

/-- The static method of that name and arity that the class itself declares. -/
def staticMethod? (c : ClassInfo) (name : String) (arity : Nat) : Option MethodInfo :=
  c.methods.find? fun m => m.isStatic && m.name == name && m.arity == arity

end ClassInfo

/-- The registered classes, at most one of each name. -/
structure Registry where
  /-- The classes, the latest registered first. -/
  classes : List ClassInfo := []
deriving DecidableEq, Inhabited

namespace Registry

/-- Registers a class in place of any earlier class of the same name. -/
def register (r : Registry) (c : ClassInfo) : Registry :=
  ⟨c :: r.classes.filter (·.name != c.name)⟩

/-- The registry that results from registering the classes in order. -/
def ofList (classes : List ClassInfo) : Registry :=
  classes.foldl register {}

/-- The registered class of that name. -/
def class? (r : Registry) (name : String) : Option ClassInfo :=
  r.classes.find? (·.name == name)

/-- At most `bound` classes of a line of descent, nearest first. -/
def descent (r : Registry) : Nat → String → List ClassInfo
  | 0, _ => []
  | bound + 1, name =>
    match r.class? name with
    | none => []
    | some c =>
      c :: match c.parent with
        | none => []
        | some parent => r.descent bound parent

/-- The class of that name and its ancestors, nearest first. A line of descent without a cycle is no
longer than the registry. -/
def lineage (r : Registry) (name : String) : List ClassInfo :=
  r.descent r.classes.length name

/-- The field that instances of the class have under that name. -/
def field? (r : Registry) (className name : String) : Option FieldInfo :=
  (r.lineage className).findSome? (·.field? name)

/-- The static method that the class itself declares; static methods are not inherited here. -/
def staticMethod? (r : Registry) (className name : String) (arity : Nat) : Option MethodInfo := do
  (← r.class? className).staticMethod? name arity

/-- The instance method that instances of the class have, with the class that declares it. -/
def instanceMethod? (r : Registry) (className name : String) (arity : Nat) :
    Option (ClassInfo × MethodInfo) :=
  (r.lineage className).findSome? fun c => (c.instanceMethod? name arity).map (c, ·)

/-- Every instance method of that name and arity, with its declaring class. -/
def instanceMethods (r : Registry) (name : String) (arity : Nat) : List (ClassInfo × MethodInfo) :=
  r.classes.flatMap fun c =>
    (c.methods.filter fun m => !m.isStatic && m.name == name && m.arity == arity).map (c, ·)

/-- The instance method of that name and arity, if all classes together declare exactly one. -/
def uniqueInstanceMethod? (r : Registry) (name : String) (arity : Nat) :
    Option (ClassInfo × MethodInfo) :=
  match r.instanceMethods name arity with
  | [found] => some found
  | _ => none

/-- The class is `ancestor` or descends from it. -/
def isSubclassOf (r : Registry) (className ancestor : String) : Bool :=
  (r.lineage className).any (·.name == ancestor)

/-- Some registered class extends this one directly. -/
def hasSubclasses (r : Registry) (className : String) : Bool :=
  r.classes.any (·.parent == some className)

end Registry

end ScriptLowering
