/-!
# Lowering options

Which passes run after the lowering, and up to how many plain arguments a call through a value or a
member uses the call forms of fixed arity. There are such forms for at most three arguments.
-/

namespace ScriptLowering

/-- The largest number of arguments that a call form of fixed arity takes. -/
def largestFixedArity : Nat := 3

/-- The options of a compilation. -/
structure Options where
  /-- Reuse coercions of unboxed values within a basic block. -/
  reuseCoercions : Bool := true
  /-- Tighten storage after lowering. -/
  normalizeTypes : Bool := true
  /-- Bind member calls early where the receiver's class is known. -/
  bindMemberCalls : Bool := true
  /-- Calls with at most this many plain arguments use the forms of fixed arity. -/
  fixedArity : Nat := largestFixedArity
deriving DecidableEq, Inhabited

/-- No pass runs after the lowering. -/
def Options.unoptimized : Options :=
  { reuseCoercions := false, normalizeTypes := false, bindMemberCalls := false }

end ScriptLowering
