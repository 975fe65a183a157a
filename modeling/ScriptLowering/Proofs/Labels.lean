import ScriptLowering.Proofs.Nesting

/-!
# Coherent labels

Jumps, dispatch tables, resume points, regions and the shared exit name places of the code by
labels. In a compiled body every label that is named anywhere stands in the code, in one place.

## Main results

* `Function.compile_labelsCoherent`.
-/

namespace ScriptLowering

/-- The body refers to the label. -/
inductive Body.Mentions (b : Body) (l : Label) : Prop
  | jump {i : Instr} (hi : i ∈ b.code) (hl : i.target? = some l)
  | dispatch {targets : List StateLabel} {start : Label} (hi : .dispatch targets start ∈ b.code)
    {target : StateLabel} (htarget : target ∈ targets) (hl : target.label = l)
  | dispatchStart {targets : List StateLabel} (hi : .dispatch targets l ∈ b.code)
  | suspend {kind : SuspendKind} {value result : Temp} {state : Nat} {reject : Option RejectRoute}
    (hi : .suspend kind value state l result reject ∈ b.code)
  | resumePoint {p : ResumePoint} (hp : p ∈ b.resumePoints) (hl : p.label = l)
  | region {r : ExceptionRegion} (hr : r ∈ b.regions)
    (hl : l ∈ [r.tryStart, r.tryEnd, r.handlerStart, r.handlerEnd])
  | epilogue {e : ReturnEpilogue} (he : b.epilogue = some e) (hl : e.label = l)

/-- Every label has at most one place, and one if anything refers to it. -/
structure Body.LabelsCoherent (b : Body) : Prop where
  unique : ∀ {l n m}, b.Placed l n → b.Placed l m → n = m
  bound : ∀ {l n}, b.Placed l n → l.index < b.labelCount
  placed : ∀ {l}, b.Mentions l → ∃! n, b.Placed l n

/-! ### Gates -/

/-- The label at which a dispatch starts the function, or at which a suspended function goes on. -/
def Instr.gateLabel? : Instr → Option Label
  | .dispatch _ start => some start
  | .suspend _ _ _ target _ _ => some target
  | _ => none

theorem Instr.gateLabel?_plain (i : Instr) : i.plain.gateLabel? = i.gateLabel? := by
  unfold plain unfused
  split
  · rfl
  · split <;> rfl

theorem Instr.isGate_of_gateLabel {i : Instr} {l : Label} (h : i.gateLabel? = some l) :
    i.isGate = true := by
  cases i with
  | dispatch targets start => rfl
  | suspend => rfl
  | _ => cases h

theorem Instr.Legal.gateLabel_mem {f : Function} {z : Session} {J : Jumps} {i : Instr} {l : Label}
    (h : i.Legal f z J) (hl : i.gateLabel? = some l) : l ∈ J.branch := by
  cases i with
  | dispatch targets start => exact Option.some.inj hl ▸ h.2.2.2
  | suspend kind value state label result reject => exact Option.some.inj hl ▸ h.2.2
  | _ => cases hl

namespace Finished

variable {U : Set Cell} {ctx : Context} {s : Session} {o : Outline} {l : Label}

/-- The body has the labels of the outline. -/
theorem mem_label (h : Finished U ctx s o) :
    .label l ∈ (ctx.body s).code ↔ .label l ∈ o.code := by
  simp only [List.mem_iff_getElem?]
  constructor
  · rintro ⟨n, hn⟩
    exact ⟨n, h.placed_at hn⟩
  · rintro ⟨n, hn⟩
    exact ⟨n, (h.follows.keeps hn rfl).1⟩

/-- Control goes on at a label behind every gate. -/
theorem mem_gateLabel (h : Finished U ctx s o) {i : Instr} (hi : i ∈ (ctx.body s).code)
    (hl : i.gateLabel? = some l) : .label l ∈ (ctx.body s).code := by
  obtain ⟨n, hn⟩ := List.mem_iff_getElem?.1 hi
  obtain ⟨j, hj, hplain⟩ := h.code_at hn
  have hl' : j.gateLabel? = some l := by
    rw [← Instr.gateLabel?_plain, hplain, Instr.gateLabel?_plain, hl]
  rw [h.mem_label]
  cases h.stands hj with
  | legal J hlegal hfits =>
    obtain ⟨m, hm, -⟩ := hfits.branch l (hlegal.gateLabel_mem hl')
    exact List.mem_of_getElem? hm
  | label l' h' => subst h'; cases hl'
  | closes _ _ _ _ h' => subst h'; cases hl'
  | opens _ _ _ _ _ h' => subst h'; cases hl'

end Finished

variable {f : Function} {tree : ScopeTree} {registry : Registry} {options : Options} {body : Body}

/-- In a compiled body every label stands in one place at most, and in one place if anything refers
to it. -/
theorem Function.compile_labelsCoherent (h : (f.compile tree registry options).result = .ok body) :
    body.LabelsCoherent := by
  obtain ⟨spans, hlaid, hregions⟩ := exists_laid h
  obtain ⟨lowered, hlowered, htrims⟩ := exists_lowered h
  obtain ⟨ctx, s, o, hfin, rfl⟩ := exists_finished hlowered
  have hmem : ∀ {i : Instr}, i.isSoft = false → (i ∈ body.code ↔ i ∈ (ctx.body s).code) :=
    htrims.code.mem_iff
  have hgate : ∀ {i : Instr} {l : Label}, i ∈ body.code → i.gateLabel? = some l →
      ∃ n, body.Placed l n := by
    intro i l hi hl
    have hi' := (hmem (Instr.isSoft_of_isGate (Instr.isGate_of_gateLabel hl))).1 hi
    exact List.mem_iff_getElem?.1 ((hmem rfl).2 (hfin.mem_gateLabel hi' hl))
  have hpoint : ∀ p ∈ body.resumePoints, ∃ n, body.Placed p.label n := fun p hp => by
    obtain ⟨m, hm, -⟩ := hlaid.point p hp
    exact ⟨m, hm⟩
  refine ⟨hlaid.unique, fun {l n} hn => ?_, fun {l} hmentions => ?_⟩
  · have hl : Instr.label l ∈ o.code :=
      hfin.mem_label.1 ((hmem rfl).1 (List.mem_of_getElem? hn))
    exact (hfin.bound l (mem_placedLabels.2 hl)).trans_eq htrims.labelCount.symm
  suffices hplaced : ∃ n, body.Placed l n by
    obtain ⟨n, hn⟩ := hplaced
    exact ⟨n, hn, fun m hm => hlaid.unique hm hn⟩
  cases hmentions with
  | @jump i hi hl =>
    obtain ⟨n, hn⟩ := List.mem_iff_getElem?.1 hi
    cases i with
    | branch target =>
      obtain ⟨m, hm, -⟩ := hlaid.branch hn hl
      exact ⟨m, hm⟩
    | branchIf expected condition target =>
      obtain ⟨m, hm, -⟩ := hlaid.branch hn hl
      exact ⟨m, hm⟩
    | leave target =>
      cases hl
      obtain ⟨m, hm, -⟩ := hlaid.leave hn
      exact ⟨m, hm⟩
    | _ => cases hl
  | @dispatch targets start hi target htarget hl =>
    obtain ⟨n, hn⟩ := List.mem_iff_getElem?.1 ((hmem rfl).1 hi)
    obtain ⟨p, hp, hlabel⟩ := hfin.dispatch_target hn htarget
    have := hpoint p (htrims.resumePoints ▸ hp)
    rwa [hlabel, hl] at this
  | dispatchStart hi => exact hgate hi rfl
  | suspend hi => exact hgate hi rfl
  | resumePoint hp hl => exact hl ▸ hpoint _ hp
  | @region r hr hl =>
    obtain ⟨s, hs, rfl⟩ := List.mem_map.1 (hregions ▸ hr)
    have hsound := hlaid.sound s hs
    simp only [List.mem_cons, List.not_mem_nil, or_false] at hl
    rcases hl with rfl | rfl | rfl | rfl
    · exact ⟨_, hsound.start⟩
    · exact ⟨_, hsound.rangeEnd⟩
    · exact ⟨_, hsound.mid⟩
    · exact ⟨_, hsound.stop⟩
  | @epilogue e he hl =>
    have hlowered : (ctx.body s).epilogue.map ReturnEpilogue.label = some l := by
      rw [← htrims.epilogue, he, Option.map_some, hl]
    obtain ⟨e', he', rfl⟩ := Option.map_eq_some_iff.1 hlowered
    have hl' := hfin.mem_label.2 (Outline.mem_code_of_mem_tops (hfin.exit e' he'))
    exact List.mem_iff_getElem?.1 ((hmem rfl).2 hl')

/-- `try { await 1; return 2; } finally { await 3; }` in an async function. -/
def awaitInFinally : Function where
  name := "awaitInFinally"
  kind := .function
  scope := ScopeTree.global
  body := [.tryCatch
    [.expr (.await (.number (.ofNat 1))), .ret (some (.number (.ofNat 2)))]
    none (some [.expr (.await (.number (.ofNat 3)))])]
  isAsync := true

theorem compile_labelsCoherent_awaitInFinally :
    awaitInFinally.compiledAlone.resumePoints.length = 4 ∧
      awaitInFinally.compiledAlone.LabelsCoherent := by
  have h : (awaitInFinally.compile (.ofModule "m") {} {}).result
      = .ok awaitInFinally.compiledAlone := by
    decide +kernel
  exact ⟨by decide +kernel, Function.compile_labelsCoherent h⟩

end ScriptLowering
