import ScriptLowering.Proofs.SetBeforeRead
import ScriptLowering.Proofs.WriteOnce.Tidy

/-!
# Temps are written once

The temps of a lowered body are those of its table. Each of them is defined by exactly one
instruction, and every instruction reads only temps that are defined further up in the list.

## Main results

* `Function.lower_writeOnce`.
-/

namespace ScriptLowering

/-- The instructions define the temps of the table, each once, and read no temp further up than its
definition. -/
structure Body.WriteOnce (b : Body) : Prop where
  defined : (b.code.filterMap Instr.result?).Perm ((List.range b.temps.size).map Temp.mk)
  stored : ∀ entry ∈ b.temps, entry.isSome = true
  uses : ∀ {n : Nat} {i : Instr} {t : Temp}, b.code[n]? = some i → t ∈ i.uses →
    ∃ k < n, ∃ j : Instr, b.code[k]? = some j ∧ j.result? = some t

/-- The table of the dispatch has nothing to do with temps. -/
theorem fillDispatch_temps (points : List ResumePoint) (code : List Instr) :
    definedTemps (fillDispatch points code) = definedTemps code ∧
      (UsesDefined code → UsesDefined (fillDispatch points code)) := by
  unfold fillDispatch
  split
  · rename_i targets start rest
    refine ⟨rfl, fun h n i hi => ?_⟩
    cases n with
    | zero =>
      obtain rfl : _ = i := by simpa using hi
      exact List.nil_subset _
    | succ n => exact h (n + 1) i (by simpa using hi)
  · exact ⟨rfl, id⟩

theorem Session.Tidy.writeOnce {s : Session} (h : s.Tidy []) (f : Function) :
    (s.toBody f).WriteOnce := by
  have hcode : definedTemps (s.toBody f).code = s.defined ∧ UsesDefined (s.toBody f).code := by
    unfold Session.toBody
    dsimp only
    split
    · obtain ⟨hsame, huses⟩ := fillDispatch_temps s.resumePoints.toList s.code.toList
      exact ⟨hsame, huses h.uses⟩
    · exact ⟨rfl, h.uses⟩
  refine ⟨?_, ?_, fun hi ht => hcode.2.exists_definition hi ht⟩
  · have hsize : (s.toBody f).temps.size = s.temps.size := by simp [Session.toBody]
    show (definedTemps (s.toBody f).code).Perm _
    rw [hcode.1, hsize]
    simpa using h.perm
  · simp [Session.toBody]

/-- In a lowered body every temp of the table has a storage and is defined by one instruction, and
no instruction reads a temp that is not defined further up. -/
theorem Function.lower_writeOnce {f : Function} {tree : ScopeTree} {registry : Registry}
    {options : Options} {body : Body} (h : (f.lower tree registry options).result = .ok body) :
    body.WriteOnce := by
  obtain ⟨ctx, s, u, -, -, hrun, rfl⟩ := exists_session h
  have htidy := Lower.wholeFunction_tidy hrun
  exact htidy.writeOnce f

/-- `return -(1 + x);`, where the sum is fused with its conversion. -/
def negatedSum : Function where
  name := "negatedSum"
  kind := .function
  scope := ScopeTree.global
  body := [.ret (some (.unary .neg (.binary .add (.number (.ofNat 1)) (.intrinsic "x"))))]

theorem lower_writeOnce_negatedSum :
    .define ⟨3⟩ (.addToNumber ⟨2⟩ ⟨1⟩) ∈ negatedSum.loweredAlone.code ∧
      negatedSum.loweredAlone.WriteOnce := by
  have h : (negatedSum.lower (.ofModule "m") {} {}).result = .ok negatedSum.loweredAlone := by
    decide +kernel
  exact ⟨by decide +kernel, Function.lower_writeOnce h⟩

end ScriptLowering
