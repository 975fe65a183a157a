import ScriptLowering.Lower.Function
import ScriptLowering.Pass.CoercionReuse
import ScriptLowering.Pass.MemberBinding
import ScriptLowering.Pass.TypeNormalization

/-!
# Compilation

A function is lowered and then improved by the passes that the options ask for. Types are normalized
before member calls are bound, so that the classes of constructed receivers are known by then.
-/

namespace ScriptLowering

/-- How many changes each pass made. -/
structure PassCounts where
  /-- Coercions replaced by copies. -/
  coercions : Nat
  /-- Changes of the type normalization. -/
  types : Nat
  /-- Member calls bound early. -/
  memberCalls : Nat
deriving DecidableEq, Inhabited

/-- A pass that runs only on demand; otherwise the body stays and nothing is counted. -/
def Body.passIf (b : Body) (isEnabled : Bool) (pass : Body → Body × Nat) : Body × Nat :=
  if isEnabled then pass b else (b, 0)

/-- Runs the passes that the options ask for. -/
def Body.optimize (b : Body) (registry : Registry) (options : Options) : Body × PassCounts :=
  let (b, coercions) := b.passIf options.reuseCoercions Body.reuseCoercions
  let (b, types) := b.passIf options.normalizeTypes Body.normalizeTypes
  let (b, memberCalls) := b.passIf options.bindMemberCalls fun b => b.bindMemberCalls registry
  (b, { coercions, types, memberCalls })

/-- What is reported when the passes over a body are finished. -/
def PassCounts.event (counts : PassCounts) (name : String) : Event :=
  .optimized name counts.coercions counts.types counts.memberCalls

/-- Lowers a function and runs the passes over the result. -/
def Function.compile (function : Function) (tree : ScopeTree) (registry : Registry)
    (options : Options) : Outcome :=
  let lowered := function.lower tree registry options
  match lowered.result with
  | .error _ => lowered
  | .ok body =>
    let (body, counts) := body.optimize registry options
    ⟨.ok body, lowered.events ++ [counts.event body.name]⟩

end ScriptLowering
