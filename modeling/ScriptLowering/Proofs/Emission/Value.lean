import ScriptLowering.Proofs.Emission.Step

/-!
# Representations, slots and carriers

Coercions keep what is available and add their result. A store into a carrier makes its cell
available; a carrier in a state field has none, since nothing ever takes a state field away.

Computations of values are summed up by `Evaluates`: from any point on, the result is available
behind the code. So is everything that was available before, unless the code can be left by a
suspension; then it is the floor only.
-/

namespace ScriptLowering

/-- What is left of the available cells behind code that is, or is not, left by a suspension. -/
def keep (suspends : Bool) (K I : Set Cell) : Set Cell :=
  if suspends then K else I

attribute [grind =] keep

section Keep

variable {b c : Bool} {K I J : Set Cell}

@[simp] theorem keep_false : keep false K I = I := rfl

@[simp] theorem keep_true : keep true K I = K := rfl

theorem keep_subset (h : K ⊆ I) : keep b K I ⊆ I := by
  cases b
  · exact subset_rfl
  · exact h

theorem subset_keep (h : K ⊆ I) : K ⊆ keep b K I := by
  cases b
  · exact h
  · exact subset_rfl

theorem keep_mono (h : I ⊆ J) : keep b K I ⊆ keep b K J := by
  cases b
  · exact h
  · exact subset_rfl

theorem keep_or_subset_left (h : K ⊆ I) : keep (b || c) K I ⊆ keep b K I := by
  cases b
  · exact keep_subset h
  · exact subset_rfl

theorem keep_or_subset_right (h : K ⊆ I) : keep (b || c) K I ⊆ keep c K I := by
  rw [Bool.or_comm]
  exact keep_or_subset_left h

end Keep

/-- The cells of temps. -/
def tempCells (ts : List Temp) : Set Cell :=
  {c | ∃ t ∈ ts, c = .temp t}

section TempCells

variable {t : Temp} {ts us : List Temp} {I : Set Cell}

@[simp, grind =] theorem temp_mem_tempCells : .temp t ∈ tempCells ts ↔ t ∈ ts := by
  simp [tempCells]

@[simp, grind =] theorem tempCells_nil : tempCells [] = ∅ := by
  simp [tempCells]

@[grind =] theorem tempCells_cons : tempCells (t :: ts) = insert (.temp t) (tempCells ts) := by
  ext c
  simp [tempCells]

@[grind =] theorem tempCells_append : tempCells (ts ++ us) = tempCells ts ∪ tempCells us := by
  ext c
  simp only [tempCells, List.mem_append, Set.mem_union, Set.mem_ofPred_eq]
  constructor
  · rintro ⟨t, ht | ht, rfl⟩
    · exact .inl ⟨t, ht, rfl⟩
    · exact .inr ⟨t, ht, rfl⟩
  · rintro (⟨t, ht, rfl⟩ | ⟨t, ht, rfl⟩)
    · exact ⟨t, .inl ht, rfl⟩
    · exact ⟨t, .inr ht, rfl⟩

@[grind =] theorem tempCells_subset : tempCells ts ⊆ I ↔ ∀ t ∈ ts, .temp t ∈ I :=
  ⟨fun h t ht => h ⟨t, ht, rfl⟩, fun h _ ⟨t, ht, hc⟩ => hc ▸ h t ht⟩

end TempCells

namespace Lower

/-- The computation yields a value, from any point on. -/
def Evaluates (U K : Set Cell) (ctx : Context) (suspends : Bool) (m : Lower Temp) : Prop :=
  ∀ T s I, K ⊆ I → Yields U K ctx (.idle T) s I m fun t => insert (.temp t) (keep suspends K I)

variable {U K : Set Cell} {ctx : Context} {T : Targets} {s s' : Session}
  {I : Set Cell} {value : Temp}
variable {carrier : Carrier} {field : FieldRef} {slot : Slot} {info : SlotInfo} {storage : Storage}
  {hint name : String} {left right : Temp}

/-! ### Coercions -/

theorem storageOf_yields : Keeps U K ctx T s I (storageOf value) := by
  refine .quiet (P := fun _ => True) (fun a s' h => ?_) (fun _ _ => subset_rfl)
  cases h
  exact ⟨.of_tables rfl, rfl, trivial⟩

/-- A conversion that depends on the storage. -/
theorem coerce_yields {test : Storage → Bool} {target : Storage → Storage}
    {kind : Storage → Coercion} (hvalue : .temp value ∈ I) :
    YieldsTemp U K ctx T s I (do
      let storage ← storageOf value
      if test storage then return value
      define (target storage) (.coerce (kind storage) value)) := by
  refine .bind storageOf_yields fun storage => ?_
  split
  · exact .pure (by grind)
  · exact .define trivial (by simpa [Operation.reads, Operation.uses] using hvalue)

theorem asObject_yields (hvalue : .temp value ∈ I) : YieldsTemp U K ctx T s I (asObject value) :=
  coerce_yields hvalue

theorem justAdded?_eq_some (h : justAdded? s value = some (left, right)) :
    ∃ before : Array Instr, s.code = before.push (.define value (.add left right)) := by
  unfold justAdded? at h
  split at h
  · rename_i result l r hback
    split at h
    · obtain ⟨before, hcode⟩ := Array.back?_eq_some_iff.1 hback
      exact ⟨before, by simp_all⟩
    · cases h
  · cases h

/-- A computation that, when it succeeds, leaves the session alone. -/
theorem Yields.lookup {α : Type} {m : Lower α} (h : ∀ a s', m ctx s = .ok a s' → s' = s) :
    Keeps U K ctx T s I m := by
  refine .quiet (P := fun _ => True) (fun a s' hrun => ?_) (fun _ _ => subset_rfl)
  obtain rfl := h a s' hrun
  exact ⟨.of_tables rfl, rfl, trivial⟩

/-- The fusion of an addition with the conversion behind it is invisible in an outline. -/
theorem fuseAddition_yields (h : justAdded? s value = some (left, right)) :
    Keeps U K ctx T s I (modify (fuseAddition value left right)) := by
  refine .quiet (P := fun _ => True) (fun a s' hrun => ?_) (fun _ _ => subset_rfl)
  cases hrun
  refine ⟨.of_tables rfl, ?_, trivial⟩
  obtain ⟨before, hcode⟩ := justAdded?_eq_some h
  simp [fuseAddition, hcode, Instr.unfused]

theorem asNumber_yields (hvalue : .temp value ∈ I) : YieldsTemp U K ctx T s I (asNumber value) := by
  refine .bind storageOf_yields fun storage => ?_
  split
  · exact .pure (by grind)
  · refine .get_bind ?_
    split
    · rename_i left right hadd
      refine .get_bind (.bind (.lookup fun _ _ h => (require_ok h).2) fun _ {s₂ hfound _} => ?_)
      obtain ⟨-, rfl⟩ := require_ok hfound
      refine .bind (fuseAddition_yields hadd) fun _ => ?_
      exact .pure (by grind)
    · exact .define trivial (by simpa [Operation.reads, Operation.uses] using hvalue)

theorem asBoolean_yields (hvalue : .temp value ∈ I) :
    YieldsTemp U K ctx T s I (asBoolean value) :=
  coerce_yields hvalue

theorem asText_yields (hvalue : .temp value ∈ I) : YieldsTemp U K ctx T s I (asText value) :=
  coerce_yields hvalue

theorem coerceTo_yields (hvalue : .temp value ∈ I) :
    YieldsTemp U K ctx T s I (coerceTo storage value) := by
  unfold coerceTo
  split
  · exact asNumber_yields (by grind)
  · split
    · exact asBoolean_yields (by grind)
    · exact asObject_yields (by grind)

/-! ### Constants -/

theorem literal_yields {literal : Literal} :
    YieldsTemp U K ctx T s I (define storage (.literal literal)) :=
  .define trivial (by simp [Operation.reads, Operation.uses])

/-! ### Slots -/

theorem slotStorage_yields : Keeps U K ctx T s I (slotStorage slot) := by
  refine .quiet (P := fun _ => True) (fun a s' h => ?_) (fun _ _ => subset_rfl)
  cases h
  exact ⟨.of_tables rfl, rfl, trivial⟩

/-- Counting a store changes nothing else about the slots. -/
theorem before_countStore :
    s.Before { s with
      slots := s.slots.modify slot.index fun e => { e with stores := e.stores + 1 } } := by
  refine ⟨le_rfl, fun n e he => ?_, fun _ h => h⟩
  rw [Array.getElem?_modify, he]
  split
  · exact ⟨_, rfl, rfl⟩
  · exact ⟨e, rfl, rfl⟩

theorem storeSlot_yields (hvalue : .temp value ∈ I) :
    Yields U K ctx (.idle T) s I (storeSlot slot value) fun _ => insert (.slot slot) I := by
  refine .bind slotStorage_yields fun storage => ?_
  refine .bind (coerceTo_yields (by grind)) fun t => ?_
  refine .bind (.performStore (.inl rfl)) fun _ => ?_
  exact (Yields.modify ⟨before_countStore, rfl, rfl, rfl, rfl, rfl⟩ rfl).weaken
    fun _ => Set.insert_subset_insert (by grind)

theorem loadSlot_yields (hslot : .slot slot ∈ I) : YieldsTemp U K ctx T s I (loadSlot slot) := by
  refine .bind slotStorage_yields fun storage => ?_
  exact .define trivial (by simpa [Operation.reads] using hslot)

/-- A variable may be loaded before it is set. -/
theorem loadVariable_yields (hslot : s.NamedSlot slot) :
    YieldsTemp U K ctx T s I (loadSlot slot) := by
  refine .intro fun hready => .bind slotStorage_yields fun storage {s₁ _ hs₁} => ?_
  refine .defineFrom trivial fun z hz hzU c hc => ?_
  obtain rfl : c = .slot slot := by simpa [Operation.reads] using hc
  exact .inr (hready.base ((hslot.mono (hs₁.trans hz)).mem hzU))

theorem before_freshSlot :
    s.Before { s with slots := s.slots.push { info } } := by
  refine ⟨le_rfl, fun n e he => ⟨e, ?_, rfl⟩, fun _ h => h⟩
  have hn : n < s.slots.size := (Array.getElem?_eq_some_iff.1 he).1
  rw [Array.getElem?_push_lt hn, ← he, Array.getElem?_eq_getElem hn]

theorem freshSlot_yields : Keeps U K ctx T s I (freshSlot info) := by
  refine .quiet (P := fun _ => True) (fun a s' h => ?_) (fun _ _ => subset_rfl)
  cases h
  exact ⟨⟨before_freshSlot, rfl, rfl, rfl, rfl, rfl⟩, rfl, trivial⟩

/-! ### State fields -/

theorem stateField_yields : Keeps U K ctx T s I (stateField name) := by
  refine .quiet (P := fun _ => True) (fun a s' h => ?_) (fun _ _ => subset_rfl)
  cases h
  simp only
  split <;> exact ⟨.of_tables rfl, rfl, trivial⟩

theorem loadState_yields : YieldsTemp U K ctx T s I (loadState name storage) :=
  .bind stateField_yields fun _ => .define trivial (by simp [Operation.reads, Operation.uses])

theorem storeState_yields (hvalue : .temp value ∈ I) :
    Keeps U K ctx T s I (storeState name value) :=
  .bind stateField_yields fun _ => .perform (by simpa [Effect.uses] using hvalue)

theorem setFlag_yields {flag : Bool} : Keeps U K ctx T s I (setFlag name flag) := by
  refine .bind literal_yields fun t => ?_
  exact (storeState_yields (by grind)).weaken fun _ => Set.subset_insert ..

theorem clearState_yields : Keeps U K ctx T s I (clearState name) := by
  refine .bind literal_yields fun t => ?_
  exact (storeState_yields (by grind)).weaken fun _ => Set.subset_insert ..

/-! ### Carriers -/

theorem joinCarrier_yields : Keeps U K ctx T s I (joinCarrier hint storage) :=
  .bind freshSlot_yields fun _ => .pure (by grind)

theorem durableCarrier_yields : Keeps U K ctx T s I (durableCarrier hint storage) := by
  refine .read_bind ?_
  split
  · exact joinCarrier_yields
  · refine .bind (.modify (.of_tables rfl) rfl) fun _ => .get_bind ?_
    exact .bind stateField_yields fun _ => .pure (by grind)

/-- What a resumable function keeps in a carrier is in a state field. -/
theorem durableCarrier_ok (h : durableCarrier hint storage ctx s = .ok carrier s')
    (hres : ctx.isResumable = true) : carrier.cells = ∅ := by
  have h := read_ok h
  rw [hres] at h
  obtain ⟨-, s₁, -, h⟩ := bind_ok h
  obtain ⟨field, s₂, -, h⟩ := bind_ok (get_ok h)
  cases h
  rfl

theorem storeCarrier_yields (hvalue : .temp value ∈ I) :
    Yields U K ctx (.idle T) s I (storeCarrier carrier value) fun _ => carrier.cells ∪ I := by
  unfold storeCarrier Carrier.cells
  split
  · exact (storeSlot_yields (by grind)).weaken fun _ => by simp [*]
  · refine .bind (coerceTo_yields (by grind)) fun t => ?_
    exact (Yields.perform (by simp [Effect.uses])).weaken fun _ => by simp [*]

theorem loadCarrier_yields (hcells : carrier.cells ⊆ I) :
    YieldsTemp U K ctx T s I (loadCarrier carrier) := by
  unfold loadCarrier Carrier.cells at *
  split
  · simp_all only
    exact loadSlot_yields (by simpa using hcells)
  · exact .define trivial (by simp [Operation.reads, Operation.uses])

/-- Two ways to compute a value that meet again, with the value in a carrier. -/
theorem meet_yields (b c : Bool) (first second : Lower Temp) {skip join : Label} {expected : Bool}
    {condition : Temp} (hK : K ⊆ I) (hcondition : .temp condition ∈ I)
    (hfirst : ∀ T s', Yields U K ctx (.idle T) s' I first fun t => insert (.temp t) (keep b K I))
    (hsecond : ∀ T s', Yields U K ctx (.idle T) s' I second fun t =>
      insert (.temp t) (keep c K I)) :
    Yields U K ctx ⟨[join, skip], T, [join, skip], []⟩ s I
      (do
        branchIf expected condition skip
        storeCarrier carrier (← first)
        branch join
        place skip
        storeCarrier carrier (← second)
        place join
        loadCarrier carrier)
      fun t => insert (.temp t) (keep (b || c) K I) := by
  refine .assign [join] skip [] I (by grind) ?_
  refine .assign [] join [] (carrier.cells ∪ keep (b || c) K I) (by grind) ?_
  refine .bind (.branchIf (X := I) (by grind)) fun _ => ?_
  refine .bind (hfirst _ _) fun v => ?_
  refine .bind (storeCarrier_yields (by grind)) fun _ => ?_
  refine .bind (.branch (X := carrier.cells ∪ keep (b || c) K I) ⟨by simp, ?_⟩) fun _ => ?_
  · exact Set.union_subset_union_right _ (by grind)
  refine .placeThen [join] skip [] (X := I) (by grind) ?_
  refine .bind (hsecond _ _) fun w => ?_
  refine .bind (storeCarrier_yields (by grind)) fun _ => ?_
  refine .placeThen [] join [] (X := carrier.cells ∪ keep (b || c) K I) (by grind) ?_
  exact (loadCarrier_yields Set.subset_union_left).weaken
    fun t => Set.insert_subset_insert Set.subset_union_right

theorem valueOrDefault_yields {default : Lower Temp} {b : Bool} (hK : K ⊆ I)
    (hvalue : .temp value ∈ I) (hdefault : Evaluates U K ctx b default) :
    Yields U K ctx (.idle T) s I (valueOrDefault value default)
      fun t => insert (.temp t) (keep b K I) := by
  refine .bind joinCarrier_yields fun carrier => .fresh fun skip => .fresh fun join => ?_
  refine .bind (.define trivial (by simpa [Operation.reads, Operation.uses] using hvalue))
    fun isUndefined => ?_
  refine (meet_yields b false default (Pure.pure value) (by grind) (.inl rfl)
    (fun T s' => ?_) (fun T s' => ?_)).weaken fun t => ?_
  · exact hdefault _ _ _ (by grind)
  · exact .pure (by grind)
  · rw [Bool.or_false]
    exact Set.insert_subset_insert (by grind)

end Lower

end ScriptLowering
