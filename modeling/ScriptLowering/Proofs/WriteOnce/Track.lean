import Mathlib.Data.List.Basic
import Mathlib.Data.List.Perm.Basic
import Mathlib.Data.List.Range
import ScriptLowering.Proofs.Emission

/-!
# Temps under construction

A temp is allocated, then defined by one instruction, and only then handed on. While a body is
lowered, the temps of the table are those that the code defines, each once, together with the few
that are pending: allocated for an instruction that is still to come. This is `Session.Tidy`.

`Session.Moves Q Q'` says what a part of the lowering does to a session: the session has grown, and
if it was tidy, it is tidy again, where `Q'` are pending instead of `Q`.
-/

namespace ScriptLowering

/-- The temps that the code defines, in order. -/
def definedTemps (code : List Instr) : List Temp :=
  code.filterMap Instr.result?

/-- Every temp that an instruction reads is defined in front of it. -/
def UsesDefined (code : List Instr) : Prop :=
  ∀ (n : Nat) (i : Instr), code[n]? = some i → i.uses ⊆ definedTemps (code.take n)

section Code

variable {code code' : List Instr} {i j : Instr}

theorem definedTemps_append (code code' : List Instr) :
    definedTemps (code ++ code') = definedTemps code ++ definedTemps code' :=
  List.filterMap_append

theorem definedTemps_snoc (code : List Instr) (i : Instr) :
    definedTemps (code ++ [i]) = definedTemps code ++ i.result?.toList := by
  rw [definedTemps_append]
  cases h : i.result? <;> simp [definedTemps, h]

theorem UsesDefined.nil : UsesDefined [] :=
  fun n i hi => by simp at hi

theorem UsesDefined.snoc (h : UsesDefined code) (hi : i.uses ⊆ definedTemps code) :
    UsesDefined (code ++ [i]) := by
  intro n j hj
  rcases Nat.lt_trichotomy n code.length with hn | rfl | hn
  · rw [List.getElem?_append_left hn] at hj
    rw [List.take_append_of_le_length hn.le]
    exact h n j hj
  · obtain rfl : i = j := by simpa using hj
    simpa using hi
  · rw [List.getElem?_eq_none (by simp; omega)] at hj
    cases hj

theorem UsesDefined.exists_definition (h : UsesDefined code) {n : Nat} {t : Temp}
    (hi : code[n]? = some i) (ht : t ∈ i.uses) :
    ∃ k < n, ∃ j, code[k]? = some j ∧ j.result? = some t := by
  obtain ⟨j, hj, hresult⟩ := List.mem_filterMap.1 (h n i hi ht)
  obtain ⟨k, hk⟩ := List.mem_iff_getElem?.1 hj
  have hlt : k < n := by
    have := (List.getElem?_eq_some_iff.1 hk).1
    rw [List.length_take] at this
    omega
  exact ⟨k, hlt, j, by rwa [List.getElem?_take_of_lt hlt] at hk, hresult⟩

theorem UsesDefined.init (h : UsesDefined (code ++ [i])) :
    UsesDefined code ∧ i.uses ⊆ definedTemps code := by
  constructor
  · intro n j hj
    have hn := (List.getElem?_eq_some_iff.1 hj).1
    have := h n j (by rwa [List.getElem?_append_left hn])
    rwa [List.take_append_of_le_length hn.le] at this
  · have := h code.length i (by simp)
    simpa using this

end Code

/-- What a session has defined. -/
abbrev Session.defined (s : Session) : List Temp :=
  definedTemps s.code.toList

/-- Every temp of the table is defined once, apart from those that are pending, and nothing is read
in front of its definition. -/
structure Session.Tidy (s : Session) (pending : List Temp) : Prop where
  perm : (s.defined ++ pending).Perm ((List.range s.temps.size).map Temp.mk)
  uses : UsesDefined s.code.toList

namespace Session.Tidy

variable {s s' : Session} {P P' : List Temp} {i : Instr}

/-- One more instruction, which takes its result from the pending temps. -/
theorem push (h : s.Tidy P) (hcode : s'.code = s.code.push i) (htemps : s'.temps = s.temps)
    (huses : i.uses ⊆ s.defined) (hresult : P.Perm (i.result?.toList ++ P')) : s'.Tidy P' where
  perm := by
    have hdefined : s'.defined = s.defined ++ i.result?.toList := by
      rw [Session.defined, hcode, Array.toList_push, definedTemps_snoc]
    calc (s'.defined ++ P').Perm (s.defined ++ (i.result?.toList ++ P')) := by
          rw [hdefined, List.append_assoc]
      _ |>.Perm (s.defined ++ P) := hresult.symm.append_left _
      _ |>.Perm _ := htemps ▸ h.perm
  uses := by
    rw [hcode, Array.toList_push]
    exact h.uses.snoc huses

/-- One more temp, which is pending. -/
theorem allocate (h : s.Tidy P) (storage : Storage) :
    Tidy { s with temps := s.temps.push storage } (⟨s.temps.size⟩ :: P) where
  perm := by
    have hrange : (List.range (s.temps.push storage).size).map Temp.mk
        = (List.range s.temps.size).map Temp.mk ++ [⟨s.temps.size⟩] := by
      simp [List.range_succ]
    rw [hrange]
    refine List.perm_middle.trans ?_
    refine (List.Perm.cons _ h.perm).trans ?_
    exact (List.perm_append_singleton _ _).symm
  uses := h.uses

/-- Nothing happens to the code and the table. -/
theorem congr (h : s.Tidy P) (hcode : s'.code = s.code) (htemps : s'.temps = s.temps) :
    s'.Tidy P where
  perm := by
    rw [Session.defined, hcode, htemps]
    exact h.perm
  uses := hcode ▸ h.uses

end Session.Tidy

/-- What was produced stays: nothing is taken back but the form of an addition. -/
structure Session.Grows (s s' : Session) : Prop where
  defined : s.defined ⊆ s'.defined
  code : s.code.toList.map Instr.unfused <+: s'.code.toList.map Instr.unfused
  points : s.resumePoints.toList <+: s'.resumePoints.toList
  routed : s.routedCount ≤ s'.routedCount

/-- Nothing happens to the code and the temps. -/
structure Session.SameCode (s s' : Session) : Prop where
  code : s'.code = s.code
  temps : s'.temps = s.temps
  points : s.resumePoints.toList <+: s'.resumePoints.toList
  routed : s.routedCount ≤ s'.routedCount

namespace Session

variable {s s' s'' : Session} {i : Instr}

theorem Grows.refl (s : Session) : s.Grows s :=
  ⟨List.Subset.refl _, List.prefix_refl _, List.prefix_refl _, le_rfl⟩

theorem Grows.trans (h : s.Grows s') (h' : s'.Grows s'') : s.Grows s'' :=
  ⟨List.Subset.trans h.defined h'.defined, h.code.trans h'.code, h.points.trans h'.points,
    h.routed.trans h'.routed⟩

theorem SameCode.of_eq (hcode : s'.code = s.code) (htemps : s'.temps = s.temps)
    (hpoints : s'.resumePoints = s.resumePoints) (hrouted : s'.routedCount = s.routedCount) :
    s.SameCode s' :=
  ⟨hcode, htemps, hpoints ▸ List.prefix_refl _, hrouted.ge⟩

theorem SameCode.trans (h : s.SameCode s') (h' : s'.SameCode s'') : s.SameCode s'' :=
  ⟨h'.code.trans h.code, h'.temps.trans h.temps, h.points.trans h'.points, h.routed.trans h'.routed⟩

theorem SameCode.grows (h : s.SameCode s') : s.Grows s' := by
  refine ⟨?_, ?_, h.points, h.routed⟩
  · rw [Session.defined, Session.defined, h.code]
    exact List.Subset.refl _
  · exact h.code ▸ List.prefix_refl _

theorem Grows.push (hcode : s'.code = s.code.push i) (hpoints : s'.resumePoints = s.resumePoints)
    (hrouted : s'.routedCount = s.routedCount) : s.Grows s' := by
  refine ⟨?_, ?_, hpoints ▸ List.prefix_refl _, hrouted.ge⟩
  · simp [Session.defined, hcode, definedTemps_append]
  · simp [hcode]

end Session

/-- The session has grown, and instead of the temps `Q` the temps `Q'` are pending, if it is
tidy. -/
structure Session.Moves (s : Session) (Q Q' : List Temp) (s' : Session) : Prop where
  grows : s.Grows s'
  tidy : ∀ {P : List Temp}, s.Tidy (Q ++ P) → s'.Tidy (Q' ++ P)

namespace Session.Moves

variable {s s₁ s' : Session} {Q Q₁ Q' : List Temp} {i : Instr}

theorem trans (h : s.Moves Q Q₁ s₁) (h' : s₁.Moves Q₁ Q' s') : s.Moves Q Q' s' :=
  ⟨h.grows.trans h'.grows, fun hs => h'.tidy (h.tidy hs)⟩

/-- Other temps may be pending besides. -/
theorem frame (h : s.Moves [] [] s') (Q : List Temp) : s.Moves Q Q s' :=
  ⟨h.grows, fun hs => h.tidy hs⟩

/-- Nothing happens to the code and the temps. -/
theorem of_same (h : s.SameCode s') (Q : List Temp) : s.Moves Q Q s' :=
  ⟨h.grows, fun hs => hs.congr h.code h.temps⟩

/-- One more instruction, which defines what is pending. -/
theorem push (hcode : s'.code = s.code.push i) (htemps : s'.temps = s.temps)
    (hpoints : s'.resumePoints = s.resumePoints) (hrouted : s'.routedCount = s.routedCount)
    (huses : i.uses ⊆ s.defined) : s.Moves i.result?.toList [] s' :=
  ⟨.push hcode hpoints hrouted, fun hs => hs.push hcode htemps huses (.refl _)⟩

/-- One more temp, which is pending. -/
theorem allocate (storage : Storage) :
    s.Moves [] [⟨s.temps.size⟩] { s with temps := s.temps.push storage } :=
  ⟨⟨List.Subset.refl _, List.prefix_refl _, List.prefix_refl _, le_rfl⟩, fun hs => hs.allocate storage⟩

end Session.Moves

end ScriptLowering
