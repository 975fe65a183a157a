import ScriptLowering.Proofs.Emission.Iteration
import ScriptLowering.Proofs.RoutedTry

/-!
# Try statements

A `try` without a suspend point is one protected region, or two, one in the range of the other. A
`try` around a suspend point is made of branches between labels at which no more than the floor is
available: what is pending is in state fields.
-/

namespace ScriptLowering.Lower

variable {U K I : Set Cell} {ctx : Context} {T : Targets} {s s' : Session}
  {block finalizer : Lower Unit} {handler : Temp → Lower Unit} {after : Label}

/-- The computation lowers code that is given a value, from any point on. -/
def ExecutesWith (U K : Set Cell) (ctx : Context) (m : Temp → Lower Unit) : Prop :=
  ∀ T s I value, K ⊆ I → .temp value ∈ I → Yields U K ctx (.idle T) s I (m value) fun _ => K

theorem catchBody_executesWith {scope : Option ScopeId} {param : Option Pattern} {body : Lower Unit}
    (hparam : ∀ p, param = some p → ∀ K' blocks,
      Binds U K' { ctx with blocks } p.holdsTarget (bindPattern .init p))
    (hbody : ∀ K' blocks, Executes U K' { ctx with blocks } body) :
    ExecutesWith U K ctx (catchBody scope param body) := by
  intro T s I value hK hvalue
  have hcode : ∀ K' blocks s I, K' ⊆ I → .temp value ∈ I → Yields U K' { ctx with blocks } (.idle T) s I
      (catchBody none param body value) fun _ => K' := by
    intro K' blocks s I hK' hvalue'
    cases param with
    | none => exact hbody _ _ _ _ _ hK'
    | some p =>
      refine .bind (hparam p rfl _ _ _ _ _ _ hK' hvalue') fun _ => ?_
      exact hbody _ _ _ _ _ (subset_keep hK')
  refine inScope_yields (hcode _ _ _ _ hK hvalue) fun id carrier s₁ => ?_
  exact .weaken (hcode _ _ _ _ (Set.union_subset_union_right _ hK) (.inr hvalue)) (by grind)

/-! ### Protected regions -/

theorem protectedCatch_leaves {X : Set Cell} (hafter : (after, X) ∈ T.all) (hX : X ⊆ K) (hK : K ⊆ I)
    (hblock : Executes U K { ctx with frames := .guarded :: ctx.frames } block)
    (hhandler : ExecutesWith U K { ctx with frames := .guarded :: ctx.frames } handler) :
    Leaves U K ctx (.idle T) s I (protectedCatch block handler after) fun _ => Set.univ := by
  refine .freshHidden fun tryStart => .freshHidden fun handlerStart => .freshHidden
    fun handlerEnd {s₃ _} => ?_
  let r : ExceptionRegion :=
    { kind := .catchHandler, tryStart, tryEnd := handlerStart, handlerStart, handlerEnd }
  have hr : RegionParts K K K I T [] T.all [handlerEnd, handlerStart, tryStart] [] [] [] [] r :=
    ⟨⟨List.reverse_perm _ |>.symm, .refl _⟩, subset_rfl, subset_rfl, hK, rfl, by simp, by simp,
      by simp, fun _ h => h, by simp [r]⟩
  have hleave : ∀ I T s, K ⊆ I → (after, X) ∈ T.all →
      Yields U K { ctx with frames := .guarded :: ctx.frames } (.idle T) s I
        (emit (.leave after)) fun _ => Set.univ :=
    fun I T s hI hT => .leave ⟨hT, hX.trans hI⟩
  refine region_leaves hr (fun s₁ hs₁ hstays => ?_) fun s₃ hs₃ => ?_
  · refine .of_last (.bind fun _ => leavesLast_leave after) hstays ?_
    exact .bind (hblock _ _ _ hK) fun _ => hleave _ _ _ subset_rfl hafter
  · refine .catch subset_rfl (fun _ => .bind fun _ => leavesLast_leave after) fun t s₄ _ => ?_
    refine .bind (hhandler _ _ _ t (by grind) (.inl rfl)) fun _ => ?_
    exact hleave _ _ _ subset_rfl hafter

theorem protectedFinally_leaves (hK : K ⊆ I)
    (hcode : ∀ s, s.Stays → Leaves U K { ctx with frames := .guarded :: ctx.frames }
      (.idle ⟨[], T.all⟩) s I code fun _ => Set.univ)
    (hfinalizer : Executes U K { ctx with frames := .finallyHandler :: ctx.frames } finalizer) :
    Leaves U K ctx (.idle T) s I (protectedFinally code finalizer) fun _ => Set.univ := by
  refine .freshHidden fun tryStart => .freshHidden fun handlerStart => .freshHidden
    fun handlerEnd {s₃ _} => ?_
  let r : ExceptionRegion :=
    { kind := .finallyHandler, tryStart, tryEnd := handlerStart, handlerStart, handlerEnd }
  have hr : RegionParts K K K I T [] [] [handlerEnd, handlerStart, tryStart] [] [] [] [] r :=
    ⟨⟨List.reverse_perm _ |>.symm, .refl _⟩, subset_rfl, subset_rfl, hK, rfl, by simp, by simp,
      by simp, by simp, by simp⟩
  refine region_leaves hr (fun s₁ _ hstays => hcode s₁ hstays) fun s₃ _ => ?_
  exact .finally subset_rfl (hfinalizer _ _ _ subset_rfl)

theorem protectedTry_executes {handler : Option (Temp → Lower Unit)}
    {finalizer : Option (Lower Unit)} (hplain : Executes U K ctx block)
    (hblock : ∀ frames, frames ≠ [] → (∀ f ∈ frames, f = .guarded) →
      Executes U K { ctx with frames := frames ++ ctx.frames } block)
    (hhandler : ∀ h, handler = some h → ∀ frames, frames ≠ [] → (∀ f ∈ frames, f = .guarded) →
      ExecutesWith U K { ctx with frames := frames ++ ctx.frames } h)
    (hfinalizer : ∀ f, finalizer = some f →
      Executes U K { ctx with frames := .finallyHandler :: ctx.frames } f) :
    Executes U K ctx (protectedTry block handler finalizer) := by
  refine fun T s I hK => .fresh fun after => .assign [] after [] K (by grind) ?_
  have hafter : (after, K) ∈ Targets.all { T with near := (after, K) :: T.near } :=
    (.head _) ..
  have hrest : ∀ s I, K ⊆ I → Yields U K ctx
      ⟨[], { T with near := (after, K) :: T.near }, [after], []⟩ s I (place after) fun _ => K :=
    fun s I hI => .place (by grind)
  cases handler with
  | none =>
    cases finalizer with
    | none => exact .bind (hplain _ _ _ hK) fun _ => hrest _ _ subset_rfl
    | some finalizer =>
      refine .bind (protectedFinally_leaves hK (fun s hs => ?_) (hfinalizer _ rfl)).yields
        fun _ => hrest _ _ (Set.subset_univ _)
      refine .of_last (.bind fun _ => leavesLast_leave after) hs ?_
      refine .bind (hblock [.guarded] (by simp) (by simp) _ _ _ hK) fun _ => ?_
      exact .leave (X := K) ⟨hafter, subset_rfl⟩
  | some handler =>
    cases finalizer with
    | none =>
      exact .bind (protectedCatch_leaves hafter subset_rfl hK (hblock [.guarded] (by simp) (by simp))
        (hhandler _ rfl [.guarded] (by simp) (by simp))).yields
        fun _ => hrest _ _ (Set.subset_univ _)
    | some finalizer =>
      refine .bind (protectedFinally_leaves hK (fun s _ => ?_) (hfinalizer _ rfl)).yields
        fun _ => hrest _ _ (Set.subset_univ _)
      exact protectedCatch_leaves hafter subset_rfl hK
        (hblock [.guarded, .guarded] (by simp) (by simp))
        (hhandler _ rfl [.guarded, .guarded] (by simp) (by simp))

/-! ### Routing -/

variable {fields : PendingFields}
variable {checkReturn exit : Label} {code : Lower Unit}

theorem pendingFields_yields : Keeps U K ctx T s I pendingFields := by
  refine .get_bind (.bind (.modify (.of_tables rfl) rfl) fun _ => .pure (by grind))

/-- Code inside a routed `try`: at the labels of the statement nothing is available beyond the
floor. -/
theorem routed_yields {throwLabel : Label} {finallyRoute : Option FinallyRoute}
    (hpause : ctx.mayPause) (hthrow : (throwLabel, K) ∈ T.near)
    (hfinally : ∀ route, finallyRoute = some route →
      (route.entry, K) ∈ T.near ∧ (route.exit, K) ∈ T.near)
    (hK : K ⊆ I) (hcode : ∀ route, Executes U K { ctx with frames := .routed route :: ctx.frames } code) :
    Yields U K ctx (.idle T) s I (routed fields throwLabel finallyRoute code) fun _ => K := by
  obtain ⟨hres, hnative⟩ := Bool.and_eq_true_iff.1 hpause
  have hnative : (Jumps.ofFrames ctx.frames).isNative = false := by
    rw [Jumps.isNative_ofFrames]
    simpa using hnative
  refine .intro fun hready => ?_
  have hin : ∀ state s, Yields U K ctx (.idle T) s I
      (within (.routed { throwLabel, throwState := state, fields, finallyRoute }) code)
      fun _ => K := by
    intro state s
    refine .weaken (.within rfl subset_rfl hK hready.pause (fun l hl => ⟨K, ?_, subset_rfl⟩) (by simp)
      (hcode _ _ _ _ hK)) (by grind)
    cases finallyRoute with
    | none =>
      obtain rfl := List.mem_singleton.1 hl
      exact hthrow
    | some route =>
      obtain ⟨hentry, hexit⟩ := hfinally route rfl
      simp only [Frame.labels, List.mem_cons, List.not_mem_nil, or_false] at hl
      rcases hl with rfl | rfl | rfl
      · exact hthrow
      · exact hentry
      · exact hexit
  refine .read_bind ?_
  split
  · refine .bind ?_ fun state {s₁ _ _} => hin state s₁
    rw [map_eq_pure_bind]
    exact .bind (addResumePoint_yields hres hthrow hnative
      ((hready.pause hpause).trans Set.subset_union_right))
      fun _ => .pure (by grind)
  · exact .bind (.pure (by grind)) fun state {s₁ _ _} => hin state s₁

theorem routedHandler_yields (hK : K ⊆ I)
    (hhandler : ExecutesWith U K ctx handler) :
    Yields U K ctx (.idle T) s I (routedHandler fields handler) fun _ => K := by
  refine .bind loadState_yields fun exception => ?_
  refine .bind clearState_yields fun _ => ?_
  refine .bind setFlag_yields fun _ => ?_
  exact hhandler _ _ _ _ (by grind) (.inl rfl)

theorem routedCatch_executes (hpause : ctx.mayPause)
    (hblock : ∀ route, Executes U K { ctx with frames := .routed route :: ctx.frames } block)
    (hhandler : ExecutesWith U K ctx handler) :
    Executes U K ctx (routedCatch fields block handler) := by
  intro T s I hK
  refine .fresh fun catchLabel => .fresh fun after => ?_
  refine .assign [after] catchLabel [] K (by grind) (.assign [] after [] K (by grind) ?_)
  refine .bind clearState_yields fun _ => ?_
  refine .bind (routed_yields hpause (by simp) (by simp) hK hblock) fun _ => ?_
  refine .bind (.branch (X := K) (by grind)) fun _ => ?_
  refine .placeThen [after] catchLabel [] (X := K) (by grind) ?_
  refine .bind (routedHandler_yields subset_rfl hhandler) fun _ => ?_
  exact .place (by grind)

theorem notePendingException_yields : Keeps U K ctx T s I (notePendingException fields) := by
  exact .bind setFlag_yields fun _ => setFlag_yields

theorem clearPending_yields : Keeps U K ctx T s I (clearPending fields) := by
  refine .bind clearState_yields fun _ => ?_
  refine .bind setFlag_yields fun _ => ?_
  refine .bind clearState_yields fun _ => ?_
  exact setFlag_yields

/-- A routed `try` from the point on where its finally block is entered with an exception. -/
theorem finishing_yields {exceptionToFinally exceptionInFinally entry : Label}
    (hpause : ctx.mayPause)
    (htyped : ∀ l ∈ [exceptionToFinally, exceptionInFinally, entry, exit, checkReturn, after],
      (l, K) ∈ T.near)
    (hfinalizer : ∀ route, Executes U K { ctx with frames := .routed route :: ctx.frames } finalizer) :
    Yields U K ctx
      ⟨[], T, [after, checkReturn, exit, entry, exceptionInFinally, exceptionToFinally], []⟩ s
      Set.univ (finishing fields finalizer exceptionToFinally exceptionInFinally entry exit checkReturn after)
      fun _ => K := by
  have hexit := htyped exit (by simp)
  have hentry := htyped entry (by simp)
  simp only [finishing, noteAt, takeUp, testFlag, bind_assoc]
  refine .placeThen [after, checkReturn, exit, entry, exceptionInFinally] exceptionToFinally []
    (X := K) (by grind) ?_
  refine .bind notePendingException_yields fun _ => ?_
  refine .bind (.branch ⟨hentry, subset_rfl⟩) fun _ => ?_
  refine .placeThen [after, checkReturn, exit] entry [exceptionInFinally] (X := K) (by grind) ?_
  refine .bind (routed_yields hpause (htyped _ (by simp)) ?_ subset_rfl hfinalizer) fun _ => ?_
  · rintro route heq
    cases heq
    exact ⟨hentry, hexit⟩
  refine .bind (.branch ⟨hexit, subset_rfl⟩) fun _ => ?_
  refine .placeThen [after, checkReturn, exit] exceptionInFinally [] (X := K) (by grind) ?_
  refine .bind notePendingException_yields fun _ => ?_
  refine .bind (.branch ⟨hexit, subset_rfl⟩) fun _ => ?_
  refine .placeThen [after, checkReturn] exit [] (X := K) (by grind) ?_
  refine .bind loadState_yields fun hasException => ?_
  refine .bind (.branchIf ⟨htyped _ (by simp), Set.subset_insert .., Set.mem_insert ..⟩) fun _ => ?_
  refine .bind loadState_yields fun exception => ?_
  refine .bind (throwValue_yields (by grind)) fun _ => ?_
  refine .placeThen [after] checkReturn [] (X := K) (by grind) ?_
  refine .bind loadState_yields fun hasReturn => ?_
  refine .bind (.branchIf ⟨htyped _ (by simp), Set.subset_insert .., Set.mem_insert ..⟩) fun _ => ?_
  refine .bind loadState_yields fun value => ?_
  refine .bind (returnValue_yields (by grind)) fun _ => ?_
  exact .place (by grind)

theorem routedFinally_executes (fields : PendingFields) {handler : Option (Temp → Lower Unit)}
    (hpause : ctx.mayPause)
    (hblock : ∀ route, Executes U K { ctx with frames := .routed route :: ctx.frames } block)
    (hhandler : ∀ h, handler = some h → ∀ route,
      ExecutesWith U K { ctx with frames := .routed route :: ctx.frames } h)
    (hfinalizer : ∀ route, Executes U K { ctx with frames := .routed route :: ctx.frames } finalizer) :
    Executes U K ctx (routedFinally fields block handler finalizer) := by
  intro T s I hK
  rw [routedFinally_eq]
  -- without a handler there is nothing behind the label of the handler
  cases handler with
  | none =>
    refine .freshUnused fun catchLabel => ?_
    refine .fresh fun exceptionToFinally => .fresh fun exceptionInFinally => .fresh
      fun entry => .fresh fun exit => .fresh fun checkReturn => .fresh
      fun after => ?_
    refine .assign [] after _ K (by grind) (.assign [] checkReturn _ K (by grind) (.assign [] exit _ K (by grind) (.assign [] entry _ K
      (by grind) (.assign [] exceptionInFinally _ K (by grind) (.assign [] exceptionToFinally [] K (by grind) ?_)))))
    refine .bind clearPending_yields fun _ => ?_
    refine .bind (routed_yields hpause (by simp) (by simp) hK hblock) fun _ => ?_
    refine .bind (.branch (X := K) (by grind)) fun _ => ?_
    exact finishing_yields hpause (by simp) hfinalizer
  | some handler =>
    refine .fresh fun catchLabel => ?_
    refine .fresh fun exceptionToFinally => .fresh fun exceptionInFinally => .fresh
      fun entry => .fresh fun exit => .fresh fun checkReturn => .fresh
      fun after => ?_
    refine .assign [] after _ K (by grind) (.assign [] checkReturn _ K (by grind) (.assign [] exit _ K (by grind) (.assign [] entry _ K
      (by grind) (.assign [] exceptionInFinally _ K (by grind) (.assign [] exceptionToFinally _ K
        (by grind) (.assign [] catchLabel [] K (by grind) ?_))))))
    refine .bind clearPending_yields fun _ => ?_
    refine .bind (routed_yields hpause (by simp) (by simp) hK hblock) fun _ => ?_
    refine .bind (.branch (X := K) (by grind)) fun _ => ?_
    refine .placeThen [after, checkReturn, exit, entry, exceptionInFinally, exceptionToFinally]
      catchLabel [] (X := K) (by grind) ?_
    refine .bind (routed_yields hpause (by simp) (by simp) subset_rfl fun route => ?_) fun _ => ?_
    · rw [← routedHandler_eq]
      exact fun _ _ _ hI => routedHandler_yields hI (hhandler _ rfl route)
    refine .bind (.branch (X := K) (by grind)) fun _ => ?_
    exact finishing_yields hpause (by simp) hfinalizer

theorem routedTry_executes {handler : Option (Temp → Lower Unit)}
    {finalizer : Option (Lower Unit)} (hpause : ctx.mayPause) (hplain : Executes U K ctx block)
    (hblock : ∀ route, Executes U K { ctx with frames := .routed route :: ctx.frames } block)
    (hhandler : ∀ h, handler = some h → ExecutesWith U K ctx h ∧ ∀ route,
      ExecutesWith U K { ctx with frames := .routed route :: ctx.frames } h)
    (hfinalizer : ∀ f, finalizer = some f → ∀ route,
      Executes U K { ctx with frames := .routed route :: ctx.frames } f) :
    Executes U K ctx (routedTry block handler finalizer) := by
  intro T s I hK
  refine .bind pendingFields_yields fun fields => ?_
  refine .bind (.modify (.of_tables rfl) rfl) fun _ {s₂ _ _} => ?_
  cases finalizer with
  | none =>
    cases handler with
    | none => exact hplain _ _ _ hK
    | some handler => exact routedCatch_executes hpause hblock (hhandler _ rfl).1 _ _ _ hK
  | some finalizer =>
    have hfinally := routedFinally_executes fields hpause hblock (fun h hh => (hhandler h hh).2)
      (hfinalizer _ rfl) T s₂ I hK
    cases handler <;> exact hfinally

end ScriptLowering.Lower
