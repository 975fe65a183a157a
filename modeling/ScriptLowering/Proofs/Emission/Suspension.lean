import ScriptLowering.Proofs.Emission.Call

/-!
# Suspension

Behind a suspension only the floor is left, and the value that the driver sends. So whatever the
code of `yield` and `yield*` keeps from one round to the next is in state fields, or is set again
before it is read.

In a protected region no suspension is lowered at all. The lemmas cover both cases at once: `B` is
what is left behind the code, which is the floor where the code can be left by a suspension.
-/

namespace ScriptLowering.Lower

variable {U K : Set Cell} {ctx : Context} {T : Targets} {s s' : Session}
  {I B X : Set Cell} {value operand : Temp} {b : Bool}
variable {result : Carrier} {l : Label} {kind : SuspendKind}

/-! ### Resume points -/

theorem addResumePoint_yields {result : Option Temp} {kind : ResumeKind}
    (hres : ctx.isResumable) (hl : (l, X) ∈ T.near)
    (hnative : (Jumps.ofFrames ctx.frames).isNative = false)
    (hX : X ⊆ {c | ∃ t, result = some t ∧ c = .temp t} ∪ U) :
    Keeps U K ctx T s I (addResumePoint l result kind) := by
  intro hready state s' hrun
  cases hrun
  let point : ResumePoint := { state := s.resumePoints.size + 1, label := l, result, kind }
  have hb : s.Before { s with resumePoints := s.resumePoints.push point } :=
    ⟨le_rfl, fun _ e he => ⟨e, he, rfl⟩, fun _ he => he⟩
  refine ⟨.single (.point point), ⟨?_, ?_, ?_, hb, hready.inv.mono hb rfl rfl⟩, ?_⟩
  · simp [Outline.single, Outline.code, Item.code]
  · simp [Outline.single, Outline.regions]
  · simp [Outline.single, Outline.points, Item.points, point]
  refine ⟨fun n => by simp [Outline.single, Outline.tally, Item.tally], fun l hl => (by cases hl),
    fun l' hl' => ?_, fun e he => .inl he, fun z hz => ⟨⟨hres, hnative, ?_⟩, trivial⟩,
    fun z hz hzU Λ hΛ => ⟨Λ, fun _ _ _ _ => rfl, ⟨hΛ.all, hΛ.exit⟩, ⟨fun p hp => ?_, trivial⟩,
      fun A hI hK => ⟨hK, hI⟩⟩⟩
  · rcases hl' with ⟨i, hi, -⟩ | ⟨p, hp, rfl⟩
    · simp [Outline.single, Outline.code, Item.code] at hi
    · obtain rfl : p = point := by
        simpa [Outline.single, Outline.points, Item.points] using hp
      exact .inr (.inl (Yields.mem_labels_of_near hl))
  · exact Yields.mem_jumps_of_near hl
  · obtain rfl : p = point := by
      simpa [Item.points] using hp
    exact (hΛ.typed _ (Yields.mem_all_of_near hl)).trans_subset hX

theorem rejectRoute?_yields : Keeps U K ctx T s I (rejectRoute? kind) := by
  refine .read_bind ?_
  split
  · split
    · exact .pure (by grind)
    · exact .bind stateField_yields fun _ => .pure (by grind)
  · exact .pure (by grind)

/-- The instruction of a suspension. -/
theorem emitSuspend_yields {state : Nat} {result : Temp}
    {reject : Option RejectRoute} (hres : ctx.isResumable)
    (hl : (l, insert (.temp result) K) ∈ T.near)
    (hnative : (Jumps.ofFrames ctx.frames).isNative = false) (hpause : K ⊆ U)
    (hvalue : .temp value ∈ I) :
    Yields U K ctx (.idle T) s I (emit (.suspend kind value state l result reject))
      fun _ => Set.univ := by
  refine .single (i := fun _ => .suspend kind value state l result reject) (fun _ s' h => ?_)
    (fun _ => rfl) (by simp) (fun _ l' hl' => ?_)
    (fun _ _ z _ => ⟨hres, hnative, Yields.mem_jumps_of_near hl⟩) (fun _ _ Λ A _ _ hΛ hI hK => ?_)
  · cases h
    exact ⟨.of_tables rfl, rfl⟩
  · obtain rfl : l' = l := by simpa [Instr.labels] using hl'
    exact .inr (.inl (Yields.mem_labels_of_near hl))
  · refine ⟨⟨fun c hc => ?_, by simp [Instr.successors], ?_⟩, Set.subset_univ _, Set.subset_univ _⟩
    · obtain rfl : c = .temp value := by simpa [Instr.reads, Instr.uses] using hc
      exact hI hvalue
    · rintro kind' value' state' l' result' reject' heq
      cases heq
      exact (hΛ.typed _ (Yields.mem_all_of_near hl)).trans_subset (by grind)

theorem suspend_yields (hres : ctx.isResumable)
    (hB : ctx.mayPause = true → B ⊆ K) (hvalue : .temp value ∈ I) :
    Yields U K ctx (.idle T) s I (suspend kind value) fun t => insert (.temp t) B := by
  refine .read_bind ?_
  split
  · exact .decline
  · rename_i hframes
    have hnative : ctx.frames.any Frame.isNative = false := by simpa using hframes
    have hmay : ctx.mayPause = true := by simp [Context.mayPause, hres, hnative]
    have hjumps : (Jumps.ofFrames ctx.frames).isNative = false := by
      rw [Jumps.isNative_ofFrames, hnative]
    refine .intro fun hready => .bind (asObject_yields (by grind)) fun v => ?_
    refine .bind rejectRoute?_yields fun reject => ?_
    refine .fresh fun label => .bind .freshTemp fun result => ?_
    refine .assign [] label [] (insert (.temp result) K) (by grind) ?_
    refine .bind (addResumePoint_yields (X := insert (.temp result) K) hres (by simp) hjumps ?_)
      fun state => ?_
    · rintro c (rfl | hc)
      · exact .inl ⟨result, rfl, rfl⟩
      · exact .inr (hready.pause hmay hc)
    refine .bind (emitSuspend_yields hres (by simp) hjumps (hready.pause hmay) (.inl rfl))
      fun _ => ?_
    refine .placeThen [] label [] (X := insert (.temp result) K) (by grind) (.pure (by grind))

/-- What is left behind code that may suspend. -/
theorem keep_mayPause (h : ctx.mayPause) : keep ctx.mayPause K I ⊆ K := by
  rw [h, keep_true]

theorem await_evaluates {operand : Lower Temp} (h : Evaluates U K ctx b operand) :
    Evaluates U K ctx ctx.mayPause (await operand) := by
  intro T s I hK
  refine .read_bind ?_
  split
  · exact .decline
  · rename_i hasync
    have hres : ctx.isResumable = true := by
      have : ctx.function.isAsync = true := by simpa using hasync
      simp [Context.isResumable, Function.isResumable, this]
    exact .bind (h T s I hK) fun value =>
      suspend_yields hres keep_mayPause (by grind)

/-! ### Requests of the driver -/

theorem takeRequest_yields {flag field : StateField} {proceed : Temp → Lower Unit}
    (hK : K ⊆ I)
    (hproceed : ∀ t T s J, .temp t ∈ J → Yields U K ctx (.idle T) s J (proceed t)
      fun _ => Set.univ) : Keeps U K ctx T s I (takeRequest flag field proceed) := by
  refine .fresh fun otherwise => .assign [] otherwise [] I (by grind) ?_
  refine .bind loadState_yields fun requested => ?_
  refine .bind (.branchIf (X := I) (by grind)) fun _ => ?_
  refine .bind setFlag_yields fun _ => ?_
  refine .bind loadState_yields fun t => ?_
  refine .bind (hproceed t _ _ _ (.inl rfl)) fun _ => ?_
  exact .place (by grind)

theorem yieldValue_yields (hres : ctx.isResumable) (hK : K ⊆ B)
    (hB : ctx.mayPause = true → B ⊆ K) (hvalue : .temp value ∈ I) :
    Yields U K ctx (.idle T) s I (yieldValue value) fun t => insert (.temp t) B := by
  refine .bind (suspend_yields hres hB (by grind)) fun sent => ?_
  refine .bind (takeRequest_yields (by grind)
    fun _ _ _ _ ht => returnValue_yields (by grind)) fun _ => ?_
  refine .bind (takeRequest_yields (by grind)
    fun _ _ _ _ ht => throwValue_yields (by grind)) fun _ => ?_
  exact .pure (by grind)

/-! ### Delegation -/

theorem setDelegateMode_yields {mode : Nat} : Keeps U K ctx T s I (setDelegateMode mode) := by
  refine .bind literal_yields fun t => ?_
  exact (storeState_yields (by grind)).weaken fun _ => Set.subset_insert ..

theorem clearDelegate_yields : Keeps U K ctx T s I clearDelegate :=
  .bind setDelegateMode_yields fun _ => clearState_yields

theorem delegateToIterable_yields (hres : ctx.isResumable) (hK : K ⊆ B)
    (hB : ctx.mayPause = true → B ⊆ K) (hI : B ⊆ I) (hoperand : .temp operand ∈ I) :
    Yields U K ctx (.idle T) s I (delegateToIterable operand result)
      fun _ => result.cells ∪ B := by
  refine .fresh fun head => .fresh fun exhausted => ?_
  refine .assign [] exhausted [head] B (by grind) (.assign [] head [] B (by grind) ?_)
  refine .bind (reading_yields (by grind) trivial) fun items => ?_
  refine .bind setDelegateMode_yields fun _ => ?_
  refine .bind (storeState_yields (by grind)) fun _ => ?_
  refine .bind literal_yields fun zero => ?_
  refine .bind (storeState_yields (by grind)) fun _ => ?_
  refine .bind (reading_yields (by grind) trivial) fun length => ?_
  refine .bind (storeState_yields (by grind)) fun _ => ?_
  refine .placeThen [exhausted] head [] (X := B) (by grind) ?_
  -- one round: all that it needs is in state fields
  refine .bind loadState_yields fun index => ?_
  refine .bind loadState_yields fun length => ?_
  refine .bind (reading_yields (by grind) trivial) fun more => ?_
  refine .bind (.branchIf (X := B) ⟨by simp, ?_, Set.mem_insert ..⟩) fun _ => ?_
  · exact ((Set.subset_insert ..).trans (Set.subset_insert ..)).trans (Set.subset_insert ..)
  refine .bind loadState_yields fun items => ?_
  refine .bind (reading_yields (by grind) trivial) fun item => ?_
  refine .bind literal_yields fun one => ?_
  refine .bind (reading_yields (by grind) trivial) fun next => ?_
  refine .bind (storeState_yields (by grind)) fun _ => ?_
  refine .bind (yieldValue_yields hres hK hB (by grind)) fun _ => ?_
  refine .bind (.branch (X := B) (by grind)) fun _ => ?_
  refine .placeThen [] exhausted [] (X := B) (by grind) ?_
  refine .bind clearDelegate_yields fun _ => ?_
  refine .bind literal_yields fun undefined => ?_
  exact .weaken (storeCarrier_yields (by grind)) (by grind)

theorem forward_yields {step wasReturn : Carrier} {method : String} {argument : StateField}
    {request : Option StateField} {returning : Bool} :
    Yields U K ctx (.idle T) s I (forward step wasReturn method argument request returning)
      fun _ => step.cells ∪ (wasReturn.cells ∪ I) := by
  refine .bind literal_yields fun t => ?_
  refine .bind (storeCarrier_yields (by grind)) fun _ {s₂ _ _} => ?_
  have hcall : ∀ s₃, Yields U K ctx (.idle T) s₃ (wasReturn.cells ∪ insert (.temp t) I)
        (do
          let value ← loadState argument.name .object
          let array ← define .array (.packArguments [value])
          let inner ← loadState StateField.delegateTarget.name .object
          let response ← define .object (.callMember inner method array)
          storeCarrier step response)
        fun _ => step.cells ∪ (wasReturn.cells ∪ I) := by
    intro s₃
    refine .bind loadState_yields fun value => ?_
    refine .bind (reading_yields (by grind) trivial) fun array => ?_
    refine .bind loadState_yields fun inner => ?_
    refine .bind (reading_yields (by grind) trivial) fun response => ?_
    refine .weaken (storeCarrier_yields (by grind)) (by grind)
  cases request with
  | none => exact hcall _
  | some flag => exact .bind setFlag_yields fun _ => hcall _

theorem delegateToGenerator_yields (hres : ctx.isResumable) (hK : K ⊆ B)
    (hB : ctx.mayPause = true → B ⊆ K) (hI : B ⊆ I) (hoperand : .temp operand ∈ I) :
    Yields U K ctx (.idle T) s I (delegateToGenerator operand result)
      fun _ => result.cells ∪ B := by
  refine .fresh fun next => .fresh fun callReturn => .fresh fun callThrow => ?_
  refine .fresh fun afterCall => .fresh fun finished => .fresh fun completed => ?_
  refine .bind joinCarrier_yields fun step => ?_
  refine .bind joinCarrier_yields fun wasReturn {s₈ _ _} => ?_
  -- what the code behind a call of the inner generator can rely on
  let Z := step.cells ∪ (wasReturn.cells ∪ B)
  refine .assign [completed, finished, afterCall, callThrow, callReturn] next [] B (by grind) ?_
  refine .assign [completed, finished, afterCall, callThrow] callReturn [] B (by grind) ?_
  refine .assign [completed, finished, afterCall] callThrow [] B (by grind) ?_
  refine .assign [completed, finished] afterCall [] Z (by grind) ?_
  refine .bind setDelegateMode_yields fun _ => ?_
  refine .bind (storeState_yields (by grind)) fun _ => ?_
  refine .placeThen [completed, finished, afterCall, callThrow, callReturn] next [] (X := B) (by grind) ?_
  refine .bind loadState_yields fun hasReturn => ?_
  refine .bind (.branchIf (X := B) (by grind)) fun _ => ?_
  refine .bind loadState_yields fun hasException => ?_
  refine .bind (.branchIf (X := B) (by grind)) fun _ => ?_
  refine .bind forward_yields fun _ => ?_
  refine .bind (.branch (X := Z) ⟨by simp, ?_⟩) fun _ => ?_
  · exact Set.union_subset_union_right _ (by grind)
  refine .placeThen [completed, finished, afterCall, callThrow] callReturn [] (X := B) (by grind) ?_
  refine .bind forward_yields fun _ => ?_
  refine .bind (.branch (X := Z) (by grind)) fun _ => ?_
  refine .placeThen [completed, finished, afterCall] callThrow [] (X := B) (by grind) ?_
  refine .bind forward_yields fun _ => ?_
  refine .placeThen [completed, finished] afterCall [] (X := Z) (by grind) ?_
  refine .bind (loadCarrier_yields Set.subset_union_left) fun response => ?_
  refine .assign [completed] finished [] (insert (.temp response) (wasReturn.cells ∪ B)) (by grind) ?_
  refine .bind (reading_yields (by grind) trivial) fun property => ?_
  refine .bind (asBoolean_yields (by grind)) fun done => ?_
  refine .bind (.branchIf (X := insert (.temp response) (wasReturn.cells ∪ B)) ⟨by simp, ?_, Set.mem_insert ..⟩) fun _ => ?_
  · exact ((Set.insert_subset_insert Set.subset_union_right).trans (Set.subset_insert ..)).trans
      (Set.subset_insert ..)
  refine .bind (reading_yields (by grind) trivial) fun value => ?_
  refine .bind (suspend_yields hres hB (by grind)) fun _ => ?_
  refine .bind (.branch (X := B) (by grind)) fun _ => ?_
  refine .placeThen [completed] finished [] (X := insert (.temp response) (wasReturn.cells ∪ B)) (by grind) ?_
  refine .bind (reading_yields (by grind) trivial) fun final => ?_
  refine .assign [] completed [] (insert (.temp final) B) (by grind) ?_
  refine .bind clearDelegate_yields fun _ => ?_
  refine .bind (loadCarrier_yields ?_) fun returned => ?_
  · exact Set.subset_union_left.trans ((Set.subset_insert ..).trans (Set.subset_insert ..))
  refine .bind (.branchIf (X := insert (.temp final) B) ⟨by simp, ?_, Set.mem_insert ..⟩)
    fun _ => ?_
  · exact (Set.insert_subset_insert (Set.subset_union_right.trans (Set.subset_insert ..))).trans
      (Set.subset_insert ..)
  refine .bind (returnValue_yields (by grind)) fun _ => ?_
  refine .placeThen [] completed [] (X := insert (.temp final) B) (by grind) ?_
  exact .weaken (storeCarrier_yields (by grind)) (by grind)

theorem delegate_yields (hres : ctx.isResumable) (hK : K ⊆ B)
    (hB : ctx.mayPause = true → B ⊆ K) (hI : B ⊆ I) (hoperand : .temp operand ∈ I) :
    Yields U K ctx (.idle T) s I (delegate operand) fun t => insert (.temp t) B := by
  refine .bind (asObject_yields (by grind)) fun object => ?_
  refine .bind joinCarrier_yields fun result => ?_
  refine .fresh fun generatorPath => .fresh fun done => ?_
  refine .assign [done] generatorPath [] (insert (.temp object) B) (by grind) ?_
  refine .assign [] done [] (result.cells ∪ B) (by grind) ?_
  refine .bind (reading_yields (by grind) trivial) fun isGenerator => ?_
  refine .bind (.branchIf (X := insert (.temp object) B) (by grind)) fun _ => ?_
  refine .bind (delegateToIterable_yields hres hK hB (by grind) (by grind)) fun _ => ?_
  refine .bind (.branch (X := result.cells ∪ B) (by grind)) fun _ => ?_
  refine .placeThen [done] generatorPath [] (X := insert (.temp object) B) (by grind) ?_
  refine .bind (delegateToGenerator_yields hres hK hB (by grind) (by grind)) fun _ => ?_
  refine .placeThen [] done [] (X := result.cells ∪ B) (by grind) ?_
  exact .weaken (loadCarrier_yields Set.subset_union_left) (by grind)

theorem yieldExpr_evaluates {operand : Lower Temp} {delegates : Bool}
    (h : Evaluates U K ctx b operand) :
    Evaluates U K ctx (b || ctx.mayPause) (yieldExpr operand delegates) := by
  intro T s I hK
  refine .read_bind ?_
  split
  · exact .decline
  · rename_i hgenerator
    have hres : ctx.isResumable = true := by
      have : ctx.function.isGenerator = true := by simpa using hgenerator
      simp [Context.isResumable, Function.isResumable, this]
    refine .bind (h T s I hK) fun value {s₁ _ _} => ?_
    have hB : ctx.mayPause = true → keep (b || ctx.mayPause) K I ⊆ K := fun hmay => by
      rw [hmay, Bool.or_true, keep_true]
    split
    · exact delegate_yields hres (subset_keep hK) hB (by grind) (by grind)
    · exact yieldValue_yields hres (subset_keep hK) hB (by grind)

end ScriptLowering.Lower
