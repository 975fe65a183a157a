import ScriptLowering.Code.Body

/-!
# Reuse of coercions

Within a basic block, a repeated coercion of the same unboxed temp is replaced by a copy of the
first result. Coercions of object-shaped values stay as they are: boxing or converting one again may
run user code or give a different object.
-/

namespace ScriptLowering.CoercionReuse

/-- The state of the sweep over the instructions. -/
structure Sweep where
  /-- The coercions carried out in this block so far, with their results. -/
  available : List ((Coercion × Temp) × Temp) := []
  /-- The instructions so far. -/
  code : Array Instr := #[]
  /-- How many coercions were replaced. -/
  count : Nat := 0

/-- Keeps an instruction as it is. -/
def Sweep.keep (s : Sweep) (instr : Instr) : Sweep :=
  { s with code := s.code.push instr }

/-- Takes up a coercion of an unboxed temp. One that is available already is copied, provided that
both results are represented alike. -/
def Sweep.coercion (b : Body) (s : Sweep) (kind : Coercion) (source result : Temp) : Sweep :=
  match s.available.lookup (kind, source) with
  | none =>
    { s.keep (.define result (.coerce kind source)) with
      available := ((kind, source), result) :: s.available }
  | some previous =>
    if b.storageOf previous = b.storageOf result then
      { s.keep (.define result (.copy previous)) with count := s.count + 1 }
    else s.keep (.define result (.coerce kind source))

/-- Takes up one instruction. -/
def Sweep.step (b : Body) (s : Sweep) (instr : Instr) : Sweep :=
  match instr with
  | .define result (.coerce kind source) =>
    if (b.storageOf source).isUnboxed then s.coercion b kind source result else s.keep instr
  | _ => if instr.endsBlock then { s.keep instr with available := [] } else s.keep instr

end ScriptLowering.CoercionReuse

namespace ScriptLowering

/-- Replaces repeated coercions; also gives their number. -/
def Body.reuseCoercions (b : Body) : Body × Nat :=
  let s := b.code.foldl (CoercionReuse.Sweep.step b) {}
  ({ b with code := s.code.toList }, s.count)

end ScriptLowering
