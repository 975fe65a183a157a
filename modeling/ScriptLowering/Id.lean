/-!
# Identifiers

The names by which a lowered body and its scope tree refer to things. Temps, slots and labels are
numbered per body, scopes and bindings per module; each kind of number is a type of its own, so that
a slot is never taken for a temp. Callables and capture-object fields are named by text.
-/

namespace ScriptLowering

/-- An intermediate value, written by one instruction. -/
structure Temp where
  /-- Position in the body's temp table. -/
  index : Nat
deriving DecidableEq, Inhabited

/-- A local variable slot, which may be written any number of times. -/
structure Slot where
  /-- Position in the body's slot table. -/
  index : Nat
deriving DecidableEq, Inhabited

/-- A place in the instruction list that jumps refer to. -/
structure Label where
  /-- Number of the label, in order of allocation. -/
  index : Nat
deriving DecidableEq, Inhabited

/-- A lexical scope of a module. -/
structure ScopeId where
  /-- Position in the scope table. -/
  index : Nat
deriving DecidableEq, Inhabited

/-- A declared identifier of a module. -/
structure BindingId where
  /-- Position in the binding table. -/
  index : Nat
deriving DecidableEq, Inhabited

/-- A separately compiled function, arrow or method. -/
structure Callable where
  /-- Symbolic name. -/
  name : String
deriving DecidableEq, Inhabited

/-- A field of a capture object, which belongs to one scope. -/
structure FieldRef where
  /-- Qualified name of the scope that owns the capture object. -/
  scope : String
  /-- Name of the field. -/
  name : String
deriving DecidableEq, Inhabited

/-- Temps are shown as `t0`, `t1`, … -/
def Temp.text (t : Temp) : String :=
  "t" ++ toString t.index

/-- Slots are shown as `v0`, `v1`, … -/
def Slot.text (s : Slot) : String :=
  "v" ++ toString s.index

/-- Labels are shown as `L0`, `L1`, … -/
def Label.text (l : Label) : String :=
  "L" ++ toString l.index

/-- Callables are shown with an at sign. -/
def Callable.text (c : Callable) : String :=
  "@" ++ c.name

/-- Capture-object fields are shown behind their scope. -/
def FieldRef.text (f : FieldRef) : String :=
  f.scope ++ "::" ++ f.name

end ScriptLowering
