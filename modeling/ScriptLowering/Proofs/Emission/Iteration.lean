import ScriptLowering.Proofs.Emission.Region

/-!
# Loops

What a loop keeps from one iteration to the next is in its carriers. Inside the loop they are part
of the floor, so it holds at the labels of the loop wherever control comes from. In a resumable
function they are state fields, which no suspension loses.
-/

namespace ScriptLowering.Lower

variable {U K I : Set Cell} {ctx : Context} {T : Targets} {s s' : Session} {b c : Bool}
  {name : Option String} {scope : Option ScopeId} {body : Lower Unit}
variable {carrier done iterator : Carrier} {exhausted finish head next : Label}
  {iterable : Lower Temp} {init update : Lower Unit} {test : Option (Lower Temp)}
  {K' X Y : Set Cell} {value : Temp} {bind : Temp → Lower Unit}

/-- The computation lowers a statement, from any point on. -/
def Executes (U K : Set Cell) (ctx : Context) (m : Lower Unit) : Prop :=
  ∀ T s I, K ⊆ I → Yields U K ctx (.idle T) s I m fun _ => K

/-- The computation binds a value, from any point on. -/
def Binds (U K : Set Cell) (ctx : Context) (suspends : Bool) (bind : Temp → Lower Unit) : Prop :=
  ∀ T s I value, K ⊆ I → .temp value ∈ I →
    Yields U K ctx (.idle T) s I (bind value) fun _ => keep (ctx.mayPause && suspends) K I

/-- The body of a loop, whose labels are typed. -/
theorem loopBody_yields (hfinish : (finish, X) ∈ T.near)
    (hX : X ⊆ K') (hnext : (next, Y) ∈ T.near) (hY : Y ⊆ K') (hK : K ⊆ K') (hI : K' ⊆ I)
    (hpause : ctx.mayPause = true → K' ⊆ U)
    (hbody : Executes U K' { ctx with frames := .loop finish next name :: ctx.frames } body) :
    Yields U K ctx (.idle T) s I (within (.loop finish next name) body) fun _ => K' := by
  refine .weaken (.within rfl hK hI hpause (fun l hl => ?_) (by simp)
    (hbody _ _ _ hI)) (by grind)
  rcases List.mem_pair.1 hl with rfl | rfl
  · exact ⟨X, hfinish, hX⟩
  · exact ⟨Y, hnext, hY⟩

/-! ### Conditions in front or behind -/

theorem whileLoop_executes {test : Lower Temp} (htest : Evaluates U K ctx b test)
    (hbody : ∀ finish next,
      Executes U K { ctx with frames := .loop finish next name :: ctx.frames } body) :
    Executes U K ctx (whileLoop name test body) := by
  refine fun T s I hK => .intro fun hready => ?_
  refine .fresh fun head => .fresh fun finish => ?_
  refine .assign [finish] head [] K (by grind) (.assign [] finish [] K (by grind) ?_)
  refine .placeThen [finish] head [] (X := K) (by grind) ?_
  refine .bind (condition_evaluates htest _ _ K subset_rfl) fun holds {s₄ _ _} => ?_
  refine .bind (.branchIf (X := K) (by grind)) fun _ => ?_
  refine .bind (loopBody_yields (X := K) (Y := K) (by simp) subset_rfl (by simp) subset_rfl
    subset_rfl (by grind) hready.pause (hbody finish head)) fun _ => ?_
  refine .bind (.branch (X := K) (by grind)) fun _ => ?_
  exact .place (by grind)

theorem doWhileLoop_executes {test : Lower Temp} (htest : Evaluates U K ctx b test)
    (hbody : ∀ finish next,
      Executes U K { ctx with frames := .loop finish next name :: ctx.frames } body) :
    Executes U K ctx (doWhileLoop name body test) := by
  refine fun T s I hK => .intro fun hready => ?_
  refine .fresh fun top => .fresh fun next => .fresh fun finish => ?_
  refine .assign [finish, next] top [] K (by grind) (.assign [finish] next [] K (by grind) (.assign [] finish [] K (by grind) ?_))
  refine .placeThen [finish, next] top [] (X := K) (by grind) ?_
  refine .bind (loopBody_yields (X := K) (Y := K) (by simp) subset_rfl (by simp) subset_rfl
    subset_rfl subset_rfl hready.pause (hbody finish next)) fun _ => ?_
  refine .placeThen [finish] next [] (X := K) (by grind) ?_
  refine .bind (condition_evaluates htest _ _ K subset_rfl) fun holds => ?_
  refine .bind (.branchIf (X := K) (by grind)) fun _ => ?_
  exact .place (by grind)

/-- A `for` from the test on. -/
theorem forLoop_rest_yields
    (hhead : (head, K) ∈ T.near) (hnext : (next, K) ∈ T.near) (hfinish : (finish, K) ∈ T.near)
    (hK : K ⊆ I) (hupdate : Executes U K ctx update)
    (hbody : Executes U K { ctx with frames := .loop finish next name :: ctx.frames } body) :
    Yields U K ctx ⟨[], T, [finish, next], []⟩ s I
      (do
        within (.loop finish next name) body
        place next
        renewBlock scope
        update
        branch head
        place finish)
      fun _ => K := by
  refine .intro fun hready => ?_
  refine .bind (loopBody_yields hfinish subset_rfl hnext subset_rfl subset_rfl hK hready.pause hbody)
    fun _ => ?_
  refine .placeThen [finish] next [] (X := K) (by grind) ?_
  refine .bind (renewBlock_yields (by grind)) fun _ => ?_
  refine .bind (hupdate _ _ _ subset_rfl) fun _ => ?_
  refine .bind (.branch ⟨hhead, subset_rfl⟩) fun _ => ?_
  exact .place (by grind)

/-- The labels of a `for` are placed inside its scope. -/
theorem forLoop_code_yields (hK : K ⊆ I) (hinit : Executes U K ctx init)
    (htest : ∀ t, test = some t → Evaluates U K ctx b t) (hupdate : Executes U K ctx update)
    (hbody : Executes U K { ctx with frames := .loop finish next name :: ctx.frames } body) :
    Yields U K ctx ⟨[finish, next, head], T, [finish, next, head], []⟩ s I
      (do
        init
        place head
        match test with
        | none => pure ()
        | some test =>
          let holds ← condition test
          branchIf false holds finish
        within (.loop finish next name) body
        place next
        renewBlock scope
        update
        branch head
        place finish)
      fun _ => K := by
  refine .assign [finish, next] head [] K (by grind) (.assign [finish] next [] K (by grind) (.assign [] finish [] K (by grind) ?_))
  refine .bind (hinit _ _ _ hK) fun _ => ?_
  refine .placeThen [finish, next] head [] (X := K) (by grind) fun {s₂ _} => ?_
  cases test with
  | none =>
    exact forLoop_rest_yields (by simp) (by simp) (by simp) subset_rfl hupdate hbody
  | some test =>
    refine .bind (condition_evaluates (htest test rfl) _ _ K subset_rfl) fun holds {s₃ _ _} => ?_
    refine .bind (.branchIf (X := K) (by grind)) fun _ => ?_
    exact forLoop_rest_yields (by simp) (by simp) (by simp) (by grind) hupdate hbody

theorem forLoop_executes (hinit : ∀ K' blocks, Executes U K' { ctx with blocks } init)
    (htest : ∀ t, test = some t → ∀ K' blocks, Evaluates U K' { ctx with blocks } b t)
    (hupdate : ∀ K' blocks, Executes U K' { ctx with blocks } update)
    (hbody : ∀ K' blocks finish next,
      Executes U K' { ctx with blocks, frames := .loop finish next name :: ctx.frames } body) :
    Executes U K ctx (forLoop name scope init test update body) := by
  intro T s I hK
  rcases inScope_cases ctx scope with h | ⟨id, data, -, h⟩ | h
  · refine .fresh fun head => .fresh fun next => .fresh fun finish => ?_
    refine Yields.congr ?_ (h _ _ _)
    exact forLoop_code_yields hK (hinit _ _) (fun t ht => htest t ht _ _) (hupdate _ _) (hbody _ _ _ _)
  · refine .freshHidden fun head => .freshHidden fun next => .freshHidden fun finish => ?_
    refine Yields.congr (withObject_yields fun carrier s₄ => ?_) (h _ _ _)
    refine .weaken (forLoop_code_yields (Set.union_subset_union_right _ hK) (hinit _ _)
      (fun t ht => htest t ht _ _) (hupdate _ _) (hbody _ _ _ _)) (by grind)
  · refine .fresh fun head => .fresh fun next => .fresh fun finish => ?_
    exact .of_fails fun a s' => h _ _ _ a s'

/-! ### Keys -/

theorem increment_yields (hcells : carrier.cells ⊆ I) :
    Keeps U K ctx T s I (increment carrier) := by
  refine .bind (loadCarrier_yields (by grind)) fun current => ?_
  refine .bind literal_yields fun one => ?_
  refine .bind (reading_yields (by grind) trivial) fun next => ?_
  refine .weaken (storeCarrier_yields (by grind)) (by grind)

/-- What a loop keeps in carriers that survive a suspension costs nothing where one is possible. -/
theorem cells_subset_of_mayPause
    (h : ctx.isResumable = true → carrier.cells = ∅) (hpause : ctx.mayPause) :
    carrier.cells ⊆ K := by
  have hres : ctx.isResumable = true := (Bool.and_eq_true_iff.1 hpause).1
  rw [h hres]
  exact Set.empty_subset K

/-- Binding the value of an iteration and running the body. -/
theorem bindAndRun_yields (hfinish : (finish, X) ∈ T.near) (hX : X ⊆ K') (hnext : (next, Y) ∈ T.near)
    (hY : Y ⊆ K') (hK : K ⊆ K') (hI : K' ⊆ I) (hpause : ctx.mayPause = true → K' ⊆ K)
    (hvalue : .temp value ∈ I) (hbind : Binds U K ctx c bind)
    (hbody : Executes U K' { ctx with frames := .loop finish next name :: ctx.frames } body) :
    Yields U K ctx (.idle T) s I
      (do
        bind value
        within (.loop finish next name) body)
      fun _ => K' := by
  refine .intro fun hready => .bind (hbind _ _ _ _ (hK.trans hI) hvalue) fun _ => ?_
  exact loopBody_yields hfinish hX hnext hY hK (by grind)
    (fun hp => (hpause hp).trans (hready.pause hp)) hbody

/-- One iteration: what the loop keeps in its carriers is part of the floor of the body. -/
theorem iteration_yields (hfinish : (finish, X) ∈ T.near) (hX : X ⊆ K') (hnext : (next, Y) ∈ T.near)
    (hY : Y ⊆ K') (hK : K ⊆ K') (hI : K' ⊆ I) (hpause : ctx.mayPause = true → K' ⊆ K)
    (hvalue : .temp value ∈ I) (hbind : ∀ K' blocks, Binds U K' { ctx with blocks } c bind)
    (hbody : ∀ K' blocks,
      Executes U K' { ctx with blocks, frames := .loop finish next name :: ctx.frames } body) :
    Yields U K ctx (.idle T) s I
      (inScope scope do
        bind value
        within (.loop finish next name) body)
      fun _ => K' := by
  refine inScope_yields ?_ fun id carrier s₁ => ?_
  · exact bindAndRun_yields hfinish hX hnext hY hK hI hpause hvalue (hbind _ _) (hbody _ _)
  · have hblock : K' ⊆ carrier.cells ∪ K' := Set.subset_union_right
    refine .weaken (bindAndRun_yields hfinish (hX.trans hblock) hnext (hY.trans hblock)
      (Set.union_subset_union_right _ hK) (Set.union_subset_union_right _ hI)
      (fun hp => Set.union_subset_union_right _ (hpause hp)) (.inr hvalue) (hbind _ _)
      (hbody _ _)) (by grind)

/-- A `for`-`in` from its head on. -/
theorem forInLoop_rest_yields
    {keys length index : Carrier} (hhead : (head, K') ∈ T.near) (hnext : (next, K') ∈ T.near)
    (hfinish : (finish, K) ∈ T.near) (hK : K ⊆ K') (hI : K' ⊆ I)
    (hpause : ctx.mayPause = true → K' ⊆ K)
    (hkeys : keys.cells ⊆ K') (hlength : length.cells ⊆ K') (hindex : index.cells ⊆ K')
    (hbind : ∀ K' blocks, Binds U K' { ctx with blocks } c bind)
    (hbody : ∀ K' blocks,
      Executes U K' { ctx with blocks, frames := .loop finish next name :: ctx.frames } body) :
    Yields U K ctx ⟨[], T, [finish, next, head], []⟩ s I
      (do
        place head
        let current ← loadCarrier index
        let count ← loadCarrier length
        let more ← define .bool (.compare .lt current count)
        branchIf false more finish
        let all ← loadCarrier keys
        let key ← define .object (.getElement all current)
        inScope scope do
          bind key
          within (.loop finish next name) body
        place next
        increment index
        branch head
        place finish)
      fun _ => K := by
  refine .placeThen [finish, next] head [] (X := K') (by grind) ?_
  refine .bind (loadCarrier_yields (by grind)) fun i => ?_
  refine .bind (loadCarrier_yields (by grind)) fun n => ?_
  refine .bind (reading_yields (by grind) trivial) fun more {s₄ _ hs₄} => ?_
  refine .bind (.branchIf ⟨hfinish, hK.trans (by grind), Set.mem_insert ..⟩) fun _ => ?_
  refine .bind (loadCarrier_yields (by grind)) fun all => ?_
  refine .bind (reading_yields (by grind) trivial) fun key => ?_
  refine .bind (iteration_yields hfinish hK hnext subset_rfl hK (by grind) hpause (.inl rfl)
    hbind hbody) fun _ => ?_
  refine .placeThen [finish] next [] (X := K') (by grind) ?_
  refine .bind (increment_yields (by grind)) fun _ => ?_
  refine .bind (.branch ⟨hhead, subset_rfl⟩) fun _ => ?_
  exact .place (by grind)

theorem forInLoop_executes {object : Lower Temp}
    (hobject : Evaluates U K ctx b object) (hbind : ∀ K' blocks, Binds U K' { ctx with blocks } c bind)
    (hbody : ∀ K' blocks finish next,
      Executes U K' { ctx with blocks, frames := .loop finish next name :: ctx.frames } body) :
    Executes U K ctx (forInLoop name scope bind object body) := by
  intro T s I hK
  refine .fresh fun head => .fresh fun next => .fresh fun finish => ?_
  refine .bind (hobject _ _ I hK) fun value => ?_
  refine .bind (asObject_yields (by grind)) fun object => ?_
  refine .bind (reading_yields (by grind) trivial) fun keys => ?_
  refine .bind (reading_yields (by grind) trivial) fun length => ?_
  refine .bind durableCarrier_yields fun keysCarrier {s₈ hkeys _} => ?_
  refine .bind durableCarrier_yields fun lengthCarrier {s₉ hlength _} => ?_
  refine .bind durableCarrier_yields fun indexCarrier {s₁₀ hindex _} => ?_
  refine .bind (storeCarrier_yields (by grind)) fun _ => ?_
  refine .bind (storeCarrier_yields (by grind)) fun _ => ?_
  refine .bind literal_yields fun zero => ?_
  refine .bind (storeCarrier_yields (by grind)) fun _ {s₁₄ _ hs₁₄} => ?_
  -- the three carriers are what the loop adds to the floor
  have hall : keysCarrier.cells ∪ lengthCarrier.cells ∪ indexCarrier.cells ∪ K ⊆ indexCarrier.cells ∪
      insert (.temp zero) (lengthCarrier.cells ∪ (keysCarrier.cells ∪ insert (.temp length)
        (insert (.temp keys) (insert (.temp object) (insert (.temp value) (keep b K I)))))) := by
    rintro cell (((h | h) | h) | h)
    · exact .inr (.inr (.inr (.inl h)))
    · exact .inr (.inr (.inl h))
    · exact .inl h
    · exact .inr (.inr (.inr (.inr (.inr (.inr (.inr (.inr (subset_keep hK h))))))))
  generalize hK' : keysCarrier.cells ∪ lengthCarrier.cells ∪ indexCarrier.cells ∪ K = K' at hall
  refine .assign [finish, next] head [] K' (by grind) (.assign [finish] next [] K' (by grind) (.assign [] finish [] K (by grind) ?_))
  refine forInLoop_rest_yields (by simp) (by simp) (by simp) (by grind) hall (fun hp => ?_)
    ?_ ?_ ?_ hbind fun _ _ => hbody _ _ _ _
  · subst hK'
    exact Set.union_subset (Set.union_subset (Set.union_subset
      (cells_subset_of_mayPause (durableCarrier_ok hkeys) hp)
      (cells_subset_of_mayPause (durableCarrier_ok hlength) hp))
      (cells_subset_of_mayPause (durableCarrier_ok hindex) hp)) subset_rfl
  · exact hK' ▸ fun _ h => .inl (.inl (.inl h))
  · exact hK' ▸ fun _ h => .inl (.inl (.inr h))
  · exact hK' ▸ fun _ h => .inl (.inr h)

/-! ### Iterators -/

theorem getIterator_evaluates (h : Evaluates U K ctx b iterable) :
    Evaluates U K ctx b (getIterator iterable) := by
  intro T s I hK
  refine .bind (h T s I hK) fun value => ?_
  refine .bind (asObject_yields (by grind)) fun object => ?_
  refine .weaken (reading_yields (by grind) trivial) (by grind)

theorem iteratorStep_yields (hcells : iterator.cells ⊆ I)
    (hexhausted : (exhausted, X) ∈ T.near) (hX : X ⊆ I) (hK : K ⊆ I) :
    YieldsTemp U K ctx T s I (iteratorStep iterator exhausted) := by
  refine .bind (loadCarrier_yields (by grind)) fun it => ?_
  refine .bind (reading_yields (by grind) trivial) fun step => ?_
  refine .bind (reading_yields (by grind) trivial) fun done => .fresh fun hasValue {s₄ _} => ?_
  refine .assign [] hasValue [] (insert (.temp step) (insert (.temp it) I)) (by grind) ?_
  refine .bind (.branchIf (X := insert (.temp step) (insert (.temp it) I)) (by grind)) fun _ => ?_
  refine .bind (.branch (X := X) ⟨by simp [hexhausted], ?_⟩) fun _ => ?_
  · exact hX.trans (by grind)
  refine .placeThen [] hasValue [] (X := insert (.temp step) (insert (.temp it) I)) (by grind) ?_
  exact .weaken (reading_yields (by grind) trivial) (by grind)

theorem closeIterator_yields (hcells : iterator.cells ⊆ I) :
    Keeps U K ctx T s I (closeIterator iterator) := by
  refine .bind (loadCarrier_yields (by grind)) fun it => ?_
  refine .bind (reading_yields (by grind) trivial) fun result => .pure (by grind)

theorem suspendingForOfLoop_executes (hiterable : Evaluates U K ctx b iterable)
    (hbind : ∀ K' blocks, Binds U K' { ctx with blocks } c bind)
    (hbody : ∀ K' blocks finish next,
      Executes U K' { ctx with blocks, frames := .loop finish next name :: ctx.frames } body) :
    Executes U K ctx (suspendingForOfLoop name scope bind iterable body) := by
  intro T s I hK
  refine .fresh fun head => .fresh fun close => .fresh fun finish => ?_
  refine .bind (getIterator_evaluates hiterable _ _ I hK) fun iterator => ?_
  refine .bind durableCarrier_yields fun carrier {s₅ hcarrier _} => ?_
  refine .bind (storeCarrier_yields (by grind)) fun _ {s₆ _ hs₆} => ?_
  refine .assign [finish, close] head [] (carrier.cells ∪ K) (by grind) (.assign [finish] close [] (carrier.cells ∪ K) (by grind) (.assign [] finish [] K (by grind) ?_))
  refine .placeThen [finish, close] head [] (X := carrier.cells ∪ K) (by grind) ?_
  refine .bind (iteratorStep_yields (X := K) (by grind) (by grind) (by grind) (by grind)) fun value => ?_
  refine .bind (iteration_yields (X := carrier.cells ∪ K) (Y := carrier.cells ∪ K) (by simp)
    subset_rfl (by simp) subset_rfl (by grind) (by grind) (fun hp => ?_) (.inl rfl)
    hbind fun _ _ => hbody _ _ _ _) fun _ => ?_
  · exact Set.union_subset (cells_subset_of_mayPause (durableCarrier_ok hcarrier) hp) subset_rfl
  refine .bind (.branch (X := carrier.cells ∪ K) (by grind)) fun _ => ?_
  refine .placeThen [finish] close [] (X := carrier.cells ∪ K) (by grind) ?_
  refine .bind (closeIterator_yields (by grind)) fun _ => ?_
  exact .place (by grind)

/-- The protected range of a `for`-`of`. -/
theorem forOfRange_yields {far : List (Label × Set Cell)}
    (hfinish : (finish, X) ∈ far) (hX : X ⊆ K) (hK : K ⊆ I)
    (hcells : iterator.cells ⊆ K) (hbind : ∀ K' blocks, Binds U K' { ctx with blocks } c bind)
    (hbody : ∀ K' blocks, Executes U K' { ctx with blocks } body) :
    Yields U K ctx ⟨[exhausted], ⟨[(head, K)], far⟩, [exhausted, head], []⟩ s I
      (forOfRange scope bind body iterator done head exhausted finish) fun _ => Set.univ := by
  refine .assign [] exhausted [] K (by grind) ?_
  refine .placeThen [exhausted] head [] (X := K) (by grind) ?_
  refine .bind literal_yields fun yes => ?_
  refine .bind (storeCarrier_yields (by grind)) fun _ {s₃ _ hs₃} => ?_
  have hK₃ : K ⊆ done.cells ∪ insert (.temp yes) K :=
    (Set.subset_insert ..).trans Set.subset_union_right
  refine .bind (iteratorStep_yields (X := K) (by grind) (by grind) (by grind) (by grind)) fun value => ?_
  refine .bind literal_yields fun no => ?_
  refine .bind (storeCarrier_yields (by grind)) fun _ {s₆ _ _} => ?_
  have hK₆ : K ⊆ done.cells ∪ insert (.temp no) (insert (.temp value)
      (done.cells ∪ insert (.temp yes) K)) :=
    (hK₃.trans (Set.subset_insert ..)).trans ((Set.subset_insert ..).trans Set.subset_union_right)
  refine .bind (show Yields _ _ _ _ _ _ _ fun _ => K from ?_) fun _ => ?_
  · refine inScope_yields ?_ fun id carrier s' => ?_
    · refine .bind (hbind _ _ _ _ _ _ hK₆ (by simp)) fun _ => ?_
      exact hbody _ _ _ _ _ (subset_keep hK₆)
    · have hK' := Set.union_subset_union_right carrier.cells hK₆
      refine .bind (hbind _ _ _ _ _ _ hK' (by simp)) fun _ => ?_
      exact .weaken (hbody _ _ _ _ _ (subset_keep hK')) (by grind)
  refine .bind (.branch (X := K) (by grind)) fun _ => ?_
  refine .placeThen [] exhausted [] (X := K) (by grind) ?_
  exact .leave (X := X) ⟨by simp [Targets.all, hfinish], hX⟩

/-- The handler of a `for`-`of`. -/
theorem forOfHandler_handles {skipClose : Label}
    (hcells : iterator.cells ⊆ K) (hcells' : done.cells ⊆ K) :
    Handles U K K ctx ⟨[skipClose], {}, [skipClose], []⟩ s .finallyHandler
      (forOfHandler iterator done skipClose) := by
  have hcode : Yields U K ctx ⟨[skipClose], {}, [skipClose], []⟩ s K
      (do
        let isDone ← loadCarrier done
        branchIf true isDone skipClose
        closeIterator iterator
        place skipClose)
      fun _ => K := by
    refine .assign [] skipClose [] K (by grind) ?_
    refine .bind (loadCarrier_yields (by grind)) fun isDone => ?_
    refine .bind (.branchIf (X := K) (by grind)) fun _ => ?_
    refine .bind (closeIterator_yields (by grind)) fun _ => ?_
    exact .place (by grind)
  simpa only [forOfHandler, bind_assoc] using Handles.finally subset_rfl hcode

/-- The region of a `for`-`of`. -/
theorem forOfRegion_leaves (tryStart head exhausted handlerStart skipClose handlerEnd : Label)
    (scope : Option ScopeId)
    (hfinish : (finish, K) ∈ T.near) (hI : iterator.cells ∪ done.cells ∪ K ⊆ I)
    (hbind : ∀ K' blocks frames, Binds U K' { ctx with blocks, frames } c bind)
    (hbody : ∀ K' blocks, Executes U K'
      { ctx with blocks, frames := .guarded :: .loop finish head name :: ctx.frames } body) :
    Leaves U K ctx
      ⟨[], T, [], [handlerEnd, skipClose, handlerStart, exhausted, head, tryStart]⟩ s I
      (do
        within (.loop finish head name) do
          within .guarded do
            place tryStart
            forOfRange scope bind body iterator done head exhausted finish
        place handlerStart
        within .finallyHandler (forOfHandler iterator done skipClose)
        place handlerEnd
        addRegion
          { kind := .finallyHandler, tryStart, tryEnd := handlerStart, handlerStart, handlerEnd })
      fun _ => Set.univ := by
  have hK : K ⊆ iterator.cells ∪ done.cells ∪ K := Set.subset_union_right
  have hiterator' : iterator.cells ⊆ iterator.cells ∪ done.cells ∪ K := fun _ h => .inl (.inl h)
  have hdone' : done.cells ⊆ iterator.cells ∪ done.cells ∪ K := fun _ h => .inl (.inr h)
  generalize iterator.cells ∪ done.cells ∪ K = K₁ at hI hK hiterator' hdone'
  let r : ExceptionRegion :=
    { kind := .finallyHandler, tryStart, tryEnd := handlerStart, handlerStart, handlerEnd }
  have hr : RegionParts K K₁ K₁ I T [(head, K₁)] []
      [handlerEnd, skipClose, handlerStart, exhausted, head, tryStart] [exhausted]
      [exhausted, head] [skipClose] [.loop finish head name] r := by
    refine ⟨⟨?_, .refl _⟩, hK, hK, hI, rfl, ?_, ?_, fun l hl => ?_, ?_, ?_⟩
    · refine List.perm_iff_count.2 fun l => ?_
      simp only [List.count_cons, List.count_nil, List.cons_append, List.nil_append, r]
      ac_rfl
    · simp [Frame.isRegion]
    · simp
    · rcases List.mem_pair.1 (by simpa [Frame.labels] using hl) with rfl | rfl
      · exact ⟨K, by simp [Targets.all, hfinish], hK⟩
      · exact ⟨K₁, by simp, subset_rfl⟩
    · simp
    · simp
  refine region_leaves hr (fun s₁ hs₁ hstays => ?_) fun s₃ hs₃ => ?_
  · refine Leaves.of_last ?_ hstays ?_
    · iterate 9 refine LeavesLast.bind fun _ => ?_
      exact leavesLast_leave finish
    · exact forOfRange_yields (X := K) (by simp [Targets.all, hfinish]) hK hI hiterator'
        (fun _ _ => hbind _ _ _) fun _ _ => hbody _ _
  · exact forOfHandler_handles hiterator' hdone'

theorem forOfLoop_executes (hiterable : Evaluates U K ctx b iterable)
    (hbind : ∀ K' blocks frames, Binds U K' { ctx with blocks, frames } c bind)
    (hbody : ∀ K' blocks finish next, Executes U K'
      { ctx with blocks, frames := .guarded :: .loop finish next name :: ctx.frames } body) :
    Executes U K ctx (forOfLoop name scope bind iterable body) := by
  intro T s I hK
  refine .freshHidden fun tryStart => .freshHidden fun head => .freshHidden
    fun exhausted => .freshHidden fun handlerStart => .freshHidden fun skipClose =>
    .freshHidden fun handlerEnd => .fresh fun finish => ?_
  refine .assign [] finish [] K (by grind) ?_
  refine .bind (getIterator_evaluates hiterable _ _ I hK) fun it => ?_
  refine .bind joinCarrier_yields fun iterator => ?_
  refine .bind (storeCarrier_yields (by grind)) fun _ => ?_
  refine .bind joinCarrier_yields fun done => ?_
  refine .bind literal_yields fun no => ?_
  refine .bind (storeCarrier_yields (by grind)) fun _ {s₁₃ _ _} => ?_
  have hI' : iterator.cells ∪ done.cells ∪ K ⊆ done.cells ∪ insert (.temp no)
      (iterator.cells ∪ insert (.temp it) (keep b K I)) := by
    rintro cell ((h | h) | h)
    · exact .inr (.inr (.inl h))
    · exact .inl h
    · exact .inr (.inr (.inr (.inr (subset_keep hK h))))
  have hfinish : (finish, K) ∈ Targets.near { T with near := (finish, K) :: T.near } :=
    (.head _) ..
  have hregion := Yields.seq (s := s₁₃) [] _ (by simp) (forOfRegion_leaves tryStart head exhausted handlerStart
    skipClose handlerEnd scope hfinish hI' hbind
    fun _ _ => hbody _ _ _ _).yields fun _ s₁₄ _ _ => Yields.place ⟨hfinish, Set.subset_univ K⟩
  simpa only [bind_assoc, List.nil_append, List.append_nil] using hregion

end ScriptLowering.Lower
