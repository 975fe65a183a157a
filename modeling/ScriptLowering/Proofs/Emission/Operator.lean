import ScriptLowering.Proofs.Emission.Block

/-!
# Members and operators

Each step that combines values reads only the temps it is given and keeps what was available. An
operator whose operands are computations leaves behind what its operands leave; where two ways meet,
that is what both of them leave.
-/

namespace ScriptLowering

variable {b c : Bool} {I K : Set Cell}

theorem keep_keep : keep c K (keep b K I) = keep (b || c) K I := by
  cases b <;> cases c <;> rfl

/-- Code that can be left by a suspension leaves the floor. -/
theorem keep_absorb : keep b K I ⊆ keep ((b && c) || b) K I := by
  cases b
  · exact subset_rfl
  · simp

namespace Lower

variable {U K : Set Cell} {ctx : Context} {T : Targets} {s s' : Session}
  {I : Set Cell} {value object key left right : Temp} {b c d : Bool}
variable {test : Lower Temp} {op : Operation} {before : Option Temp} {storage : Storage}
  {name : String} {target : Target}

/-! ### Single operations -/

attribute [grind =] Operation.uses

/-- The operation may stand by itself and reads no slot. -/
def ReadsTemps : Operation → Prop
  | .loadSlot _ => False
  | op => op.Legal

/-- An operation that reads temps only, and these are available. -/
theorem ReadsTemps.mem (hop : ReadsTemps op) (huses : ∀ t ∈ op.uses, .temp t ∈ I) :
    op.Legal ∧ ∀ cell ∈ op.reads, cell ∈ I := by
  have hreads : op.reads = op.uses.map .temp ∧ op.Legal := by
    cases op <;> first | exact ⟨rfl, hop⟩ | exact hop.elim
  refine ⟨hreads.2, fun cell hcell => ?_⟩
  rw [hreads.1] at hcell
  obtain ⟨t, ht, rfl⟩ := List.mem_map.1 hcell
  exact huses t ht

theorem reading_yields (huses : ∀ t ∈ op.uses, .temp t ∈ I) (hop : ReadsTemps op) :
    YieldsTemp U K ctx T s I (define storage op) :=
  .define (hop.mem huses).1 (hop.mem huses).2

/-! ### Members and items -/

theorem declaredField?_yields : Keeps U K ctx T s I (declaredField? object name) := by
  refine .bind storageOf_yields fun storage => ?_
  split
  · exact .pure (by grind)
  · exact .read_bind (.pure (by grind))

theorem getProperty_yields (hobject : .temp object ∈ I) :
    YieldsTemp U K ctx T s I (getProperty object name) := by
  refine .bind declaredField?_yields fun field => ?_
  split
  · exact reading_yields (by grind) trivial
  · refine .bind storageOf_yields fun storage => ?_
    split
    · exact reading_yields (by grind) trivial
    · refine .bind (asObject_yields (by grind)) fun t => ?_
      exact .weaken (reading_yields (by grind) trivial) (by grind)

theorem setProperty_yields (hobject : .temp object ∈ I)
    (hvalue : .temp value ∈ I) : Keeps U K ctx T s I (setProperty object name value) := by
  refine .bind declaredField?_yields fun field => ?_
  split
  · refine .bind (asObject_yields (by grind)) fun t => ?_
    exact .weaken (.perform (by simp [Effect.uses, hobject])) (by grind)
  · refine .bind (asObject_yields (by grind)) fun t => ?_
    refine .bind (asObject_yields (by grind)) fun u => ?_
    exact .weaken (.perform (by simp [Effect.uses])) (by grind)

theorem getItem_yields (hobject : .temp object ∈ I) (hkey : .temp key ∈ I) :
    YieldsTemp U K ctx T s I (getItem object key) := by
  refine .bind storageOf_yields fun storage => ?_
  refine .bind storageOf_yields fun storage' => ?_
  split
  · exact reading_yields (by grind) trivial
  · refine .bind (asObject_yields (by grind)) fun t => ?_
    refine .bind (asObject_yields (by grind)) fun u => ?_
    exact .weaken (reading_yields (by grind) trivial) (by grind)

theorem setItem_yields (hobject : .temp object ∈ I) (hkey : .temp key ∈ I)
    (hvalue : .temp value ∈ I) : Keeps U K ctx T s I (setItem object key value) := by
  refine .bind (asObject_yields (by grind)) fun t => ?_
  refine .bind (asObject_yields (by grind)) fun u => ?_
  refine .bind (asObject_yields (by grind)) fun v => ?_
  exact .weaken (.perform (by simp [Effect.uses])) (by grind)

theorem optionally_yields {access : Lower Temp} (hK : K ⊆ I) (hobject : .temp object ∈ I)
    (haccess : ∀ T s' J, I ⊆ J →
      Yields U K ctx (.idle T) s' J access fun t => insert (.temp t) (keep b K J)) :
    Yields U K ctx (.idle T) s I (optionally object access)
      fun t => insert (.temp t) (keep b K I) := by
  refine .bind joinCarrier_yields fun carrier => .fresh fun absent => .fresh fun finish => ?_
  refine .bind (asObject_yields (by grind)) fun t => ?_
  refine .bind (reading_yields (by grind) trivial) fun nullish {s₅ _ _} => ?_
  exact .weaken (meet_yields b false access undefined (hK.trans (by grind)) (.inl rfl)
    (fun T s' => haccess _ _ _ (by grind)) (fun T s' => literal_yields)) (by grind)

/-- The temps that a target holds its parts in. -/
def Target.cells : Target → Set Cell
  | .binding _ => ∅
  | .property object _ => {.temp object}
  | .item object key => {.temp object, .temp key}

theorem readTarget_yields (hK : K ⊆ I) (htarget : target.cells ⊆ I) :
    YieldsTemp U K ctx T s I (readTarget target) := by
  cases target with
  | binding id => exact loadBinding_yields (by grind)
  | property object name => exact getProperty_yields (htarget rfl)
  | item object key => exact getItem_yields (htarget (.inl rfl)) (htarget (.inr rfl))

theorem writeTarget_yields (hK : K ⊆ I) (htarget : target.cells ⊆ I)
    (hvalue : .temp value ∈ I) : Keeps U K ctx T s I (writeTarget target value) := by
  cases target with
  | binding id => exact assignBinding_yields (by grind) (by grind)
  | property object name => exact setProperty_yields (htarget rfl) hvalue
  | item object key => exact setItem_yields (htarget (.inl rfl)) (htarget (.inr rfl)) hvalue

/-! ### Operators on values -/

theorem arithmetic_yields {op : NumericOp} (hleft : .temp left ∈ I) (hright : .temp right ∈ I) :
    YieldsTemp U K ctx T s I (arithmetic op left right) :=
  reading_yields (by grind) trivial

/-- Two operands are converted, one after the other, and combined. -/
theorem converted_yields {convert : Temp → Lower Temp}
    {op : Temp → Temp → Operation} (hleft : .temp left ∈ I) (hright : .temp right ∈ I)
    (hconvert : ∀ t s J, .temp t ∈ J →
      Yields U K ctx (.idle T) s J (convert t) fun u => insert (.temp u) J)
    (hop : ∀ l r, ReadsTemps (op l r)) (huses : ∀ l r, (op l r).uses = [l, r]) :
    YieldsTemp U K ctx T s I (do
        let left ← convert left
        let right ← convert right
        define storage (op left right)) := by
  refine .bind (hconvert _ _ _ hleft) fun l => ?_
  refine .bind (hconvert _ _ _ (.inr hright)) fun r => ?_
  exact .weaken (reading_yields (by simp [huses]) (hop l r)) (by grind)

theorem addValues_yields (hleft : .temp left ∈ I) (hright : .temp right ∈ I) :
    YieldsTemp U K ctx T s I (addValues left right) := by
  refine .bind storageOf_yields fun l => ?_
  refine .bind storageOf_yields fun r => ?_
  split
  · exact converted_yields hleft hright (fun _ _ _ _ => asText_yields (by grind))
        (fun _ _ => trivial) (fun _ _ => rfl)
  · split
    · exact converted_yields hleft hright (fun _ _ _ _ => asNumber_yields (by grind))
        (fun _ _ => trivial) (fun _ _ => rfl)
    · exact converted_yields hleft hright (fun _ _ _ _ => asObject_yields (by grind))
        (fun _ _ => trivial) (fun _ _ => rfl)

theorem relate_yields {op : DynamicOp} (hleft : .temp left ∈ I) (hright : .temp right ∈ I) :
    YieldsTemp U K ctx T s I (relate op left right) := by
  refine .bind storageOf_yields fun l => ?_
  refine .bind storageOf_yields fun r => ?_
  simp only
  split
  · exact reading_yields (by grind) trivial
  · exact converted_yields hleft hright (fun _ _ _ _ => asObject_yields (by grind))
        (fun _ _ => trivial) (fun _ _ => rfl)

theorem applyBinary_yields {op : BinaryOp} (hleft : .temp left ∈ I) (hright : .temp right ∈ I) :
    YieldsTemp U K ctx T s I (applyBinary op left right) := by
  unfold applyBinary
  split
  · exact addValues_yields (by grind) (by grind)
  · exact converted_yields hleft hright (fun _ _ _ _ => asNumber_yields (by grind))
        (fun _ _ => trivial) (fun _ _ => rfl)
  · exact relate_yields (by grind) (by grind)

theorem update_yields {op : UpdateOp} {inFront : Bool} (hK : K ⊆ I)
    (htarget : target.cells ⊆ I) : YieldsTemp U K ctx T s I (update op inFront target) := by
  refine .bind (readTarget_yields (by grind) (by grind)) fun current => ?_
  refine .bind (asNumber_yields (by grind)) fun old => ?_
  refine .bind literal_yields fun one => ?_
  refine .bind (applyBinary_yields (by grind) (by grind)) fun updated => ?_
  refine .bind (writeTarget_yields (by grind) (by grind) (by grind)) fun _ => .pure (by grind)

/-! ### Operators on operands -/

theorem condition_evaluates (h : Evaluates U K ctx b test) :
    Evaluates U K ctx b (condition test) := by
  intro T s I hK
  refine .bind (h T s I hK) fun value => ?_
  exact .weaken (asBoolean_yields (by grind)) (by grind)

theorem unary_evaluates {op : UnaryOp} {operand : Lower Temp} (h : Evaluates U K ctx b operand) :
    Evaluates U K ctx b (unary op operand) := by
  intro T s I hK
  refine .bind (h T s I hK) fun value {s₁ _ _} => ?_
  -- a conversion and one operation on its result
  have hconvert : ∀ (convert : Lower Temp) (storage : Storage) (op : Temp → Operation),
      (Yields U K ctx (.idle T) s₁ (insert (.temp value) (keep b K I)) convert
        fun t => insert (.temp t) (insert (.temp value) (keep b K I))) →
      (∀ t, ReadsTemps (op t)) → (∀ t, (op t).uses = [t]) →
      Yields U K ctx (.idle T) s₁ (insert (.temp value) (keep b K I))
        (do define storage (op (← convert))) fun t => insert (.temp t) (keep b K I) := by
    intro convert storage op hyields hop huses
    refine .bind hyields fun t => ?_
    exact .weaken (reading_yields (by simp [huses]) (hop t)) (by grind)
  cases op with
  | neg =>
    exact hconvert _ _ (.numericUnary .neg) (asNumber_yields (by grind))
      (fun _ => trivial) (fun _ => rfl)
  | bitNot =>
    exact hconvert _ _ (.numericUnary .bitNot) (asNumber_yields (by grind))
      (fun _ => trivial) (fun _ => rfl)
  | not =>
    exact hconvert _ _ .not (asBoolean_yields (by grind)) (fun _ => trivial) (fun _ => rfl)
  | typeOf =>
    exact hconvert _ _ .typeOf (asObject_yields (by grind)) (fun _ => trivial) (fun _ => rfl)
  | plus => exact .weaken (asNumber_yields (by grind)) (by grind)
  | void => exact .weaken literal_yields (by grind)

theorem binary_evaluates {op : BinaryOp} {left right : Lower Temp} (hl : Evaluates U K ctx b left)
    (hr : Evaluates U K ctx false right) : Evaluates U K ctx b (binary op left right) := by
  intro T s I hK
  unfold binary
  split
  · refine .bind (hl T s I hK) fun u => ?_
    refine .bind (asNumber_yields (by grind)) fun l {s₂ _ _} => ?_
    refine .bind (hr T s₂ _ ?_) fun v => ?_
    · exact ((subset_keep hK).trans (Set.subset_insert ..)).trans (Set.subset_insert ..)
    refine .bind (asNumber_yields (by grind)) fun r => ?_
    refine .weaken (arithmetic_yields (by grind) (by grind)) (by grind)
  · refine .bind (hl T s I hK) fun l {s₁ _ _} => ?_
    refine .bind (hr T s₁ _ (by grind)) fun r => ?_
    refine .weaken (applyBinary_yields (by grind) (by grind)) (by grind)

theorem logicalTest_yields {op : LogicalOp} (hleft : .temp left ∈ I) :
    Yields U K ctx (.idle T) s I (logicalTest op left) fun test => insert (.temp test.2) I := by
  cases op with
  | and => exact .bind (asBoolean_yields (by grind)) fun t => .pure (by grind)
  | or => exact .bind (asBoolean_yields (by grind)) fun t => .pure (by grind)
  | nullish =>
    refine .bind (asObject_yields (by grind)) fun value => ?_
    refine .bind (reading_yields (by grind) trivial) fun t => .pure (by grind)

theorem logical_evaluates {op : LogicalOp} {left right : Lower Temp}
    (hl : Evaluates U K ctx b left) (hr : Evaluates U K ctx c right) :
    Evaluates U K ctx (b || c) (logical op left right) := by
  intro T s I hK
  refine .bind joinCarrier_yields fun carrier => .fresh fun skip => .fresh fun join => ?_
  refine .bind (hl _ _ I hK) fun value => ?_
  refine .bind (logicalTest_yields (by grind)) fun test {s₅ _ _} => ?_
  have hkeep : keep b K I ⊆ insert (.temp test.2) (insert (.temp value) (keep b K I)) :=
    (Set.subset_insert ..).trans (Set.subset_insert ..)
  refine .weaken (meet_yields c false right (Pure.pure value) (by grind) (.inl rfl)
    (fun T s' => hr _ _ _ (by grind)) (fun T s' => .pure (by grind))) (by grind)

theorem conditional_evaluates {consequent alternate : Lower Temp}
    (ht : Evaluates U K ctx b test) (hc : Evaluates U K ctx c consequent)
    (ha : Evaluates U K ctx d alternate) :
    Evaluates U K ctx (b || c || d) (conditional test consequent alternate) := by
  intro T s I hK
  refine .bind joinCarrier_yields fun carrier => .fresh fun other => .fresh fun finish => ?_
  refine .bind (condition_evaluates ht _ _ I hK) fun holds {s₄ _ _} => ?_
  have hkeep : keep b K I ⊆ insert (.temp holds) (keep b K I) := Set.subset_insert ..
  refine .weaken (meet_yields c d consequent alternate (by grind) (.inl rfl)
    (fun T s' => hc _ _ _ (by grind)) (fun T s' => ha _ _ _ (by grind))) (by grind)

/-! ### Texts -/

theorem concatText_yields {part : Temp}
    (hbefore : ∀ t, before = some t → .temp t ∈ I) (hpart : .temp part ∈ I) :
    YieldsTemp U K ctx T s I (concatText before part) := by
  cases before with
  | none => exact .pure (by grind)
  | some t =>
    exact reading_yields (by grind) trivial

theorem concatConstant_yields {text : String} (hbefore : ∀ t, before = some t → .temp t ∈ I) :
    Yields U K ctx (.idle T) s I (concatConstant before text)
      fun joined => tempCells joined.toList ∪ I := by
  unfold concatConstant
  split
  · exact .pure (Set.union_subset (tempCells_subset.2 (by simpa using hbefore)) subset_rfl)
  · refine .bind literal_yields fun part => ?_
    refine .bind (concatText_yields (by grind) (by grind)) fun t => .pure (by grind)

theorem concatConstants_yields {texts : List String}
    (hbefore : ∀ t, before = some t → .temp t ∈ I) :
    Yields U K ctx (.idle T) s I (concatConstants before texts)
      fun joined => tempCells joined.toList ∪ I := by
  induction texts generalizing s I before with
  | nil => exact .pure (Set.union_subset (tempCells_subset.2 (by simpa using hbefore)) subset_rfl)
  | cons text rest ih =>
    refine .bind (concatConstant_yields (by grind)) fun joined => ?_
    refine .weaken (ih fun t ht => .inl (by simp [ht])) (by grind)

end Lower

end ScriptLowering
