import ScriptLowering.Proofs.Emission.Operator

/-!
# Calls

The arguments of a call are collected one by one, so none but the first may suspend, and not even
that one if the callee or a receiver is held already. Where the lowering accepts the arguments, all
of them are still there when the call is emitted.
-/

namespace ScriptLowering

theorem Argument.anySuspends_eq (args : List Argument) :
    Argument.anySuspends args = Expr.anySuspends (args.map Argument.expr) := by
  induction args with
  | nil => rfl
  | cons arg rest ih =>
    cases arg <;> simp [Argument.anySuspends, Expr.anySuspends, Argument.expr, ih]

theorem Context.mayPause_imp {ctx : Context} (h : ctx.mayPause) :
    ctx.isResumable = true := by
  simp only [Context.mayPause, Bool.and_eq_true] at h
  exact h.1

namespace Lower

variable {U K : Set Cell} {ctx : Context} {T : Targets} {s s' : Session}
  {I : Set Cell} {value receiver function : Temp} {b c : Bool}
variable {object : Expr} {args : List Argument} {exprs : List Expr} {callee : Lower Temp}
  {arity : Nat} {each : Option Temp → Lower (List Temp)} {name : String}

/-! ### Held operands -/

theorem forbidSuspend_ok {u : Unit} (h : forbidSuspend exprs ctx s = .ok u s') :
    s' = s ∧ (ctx.mayPause && Expr.anySuspends exprs) = false := by
  have h₁ := read_ok h
  split at h₁
  · cases h₁
  · rename_i hcond
    cases h₁
    refine ⟨rfl, ?_⟩
    cases hpause : ctx.mayPause
    · rfl
    · simpa [Context.mayPause_imp hpause] using hcond

theorem forbidSuspend_yields : Keeps U K ctx T s I (forbidSuspend exprs) :=
  .lookup fun _ _ h => (forbidSuspend_ok h).1

/-! ### Arguments -/

/-- The computation evaluates the arguments in order. If they are appended to an array, which is
held meanwhile, none of them suspends. -/
def Collects (U K : Set Cell) (ctx : Context) (suspends : Bool)
    (each : Option Temp → Lower (List Temp)) : Prop :=
  ∀ T s I array, K ⊆ I → (suspends = true → array = none) →
    (∀ t, array = some t → .temp t ∈ I) →
    Yields U K ctx (.idle T) s I (each array) fun ts => tempCells ts ∪ keep suspends K I

/-- The arguments are evaluated as `Collects` says, provided that none but the first suspends. -/
def CollectsArgs (U K : Set Cell) (ctx : Context) (args : List Argument)
    (each : Option Temp → Lower (List Temp)) : Prop :=
  (ctx.mayPause && Expr.anySuspends ((args.map Argument.expr).drop 1)) = false →
    Collects U K ctx (ctx.mayPause && Argument.anySuspends args) each

/-- The temps that arguments are in. -/
def Arguments.cells : Arguments → Set Cell
  | .fixed values => tempCells values
  | .collected array => {.temp array}

attribute [local grind =] Arguments.cells

/-- Arguments that are evaluated while an operand is held. -/
theorem arguments_yields (heach : CollectsArgs U K ctx args each) (hK : K ⊆ I) :
    Yields U K ctx (.idle T) s I (arguments args true each) fun args => args.cells ∪ I := by
  refine .bind forbidSuspend_yields fun _ {s₁ h _} => ?_
  have hnone := (forbidSuspend_ok h).2
  simp only [if_true, List.drop_zero] at hnone
  have hcollects : Collects U K ctx false each := by
    have hall : (ctx.mayPause && Argument.anySuspends args) = false := by
      rwa [Argument.anySuspends_eq]
    refine hall ▸ heach ?_
    cases hargs : args.map Argument.expr with
    | nil => simp [Expr.anySuspends]
    | cons e rest =>
      rw [hargs, Expr.anySuspends] at hnone
      cases hpause : ctx.mayPause
      · rfl
      · simp_all
  split
  · refine .bind (reading_yields (by grind) trivial) fun array {s₂ _ _} => ?_
    refine .bind (hcollects T s₂ _ (some array) (by grind) (by simp)
      (by simp)) fun ts => .pure (by grind)
  · refine .bind (hcollects T s₁ I none hK (by simp) (by simp)) fun ts => .pure (by grind)

/-- Arguments that nothing is evaluated before. -/
theorem each_yields (heach : CollectsArgs U K ctx args each) (hK : K ⊆ I)
    (hrest : (ctx.mayPause && Expr.anySuspends ((args.map Argument.expr).drop 1)) = false) :
    Yields U K ctx (.idle T) s I (each none)
      fun ts => tempCells ts ∪ keep (ctx.mayPause && Argument.anySuspends args) K I :=
  heach hrest T s I none hK (fun _ => rfl) (by simp)

theorem plainArguments_yields
    {spread : Decline} (heach : CollectsArgs U K ctx args each) (hK : K ⊆ I) :
    Yields U K ctx (.idle T) s I (plainArguments args each spread)
      fun ts => tempCells ts ∪ keep (ctx.mayPause && Argument.anySuspends args) K I := by
  unfold plainArguments
  split
  · exact .decline
  · refine .bind forbidSuspend_yields fun _ {s₁ h _} => ?_
    exact each_yields heach hK (forbidSuspend_ok h).2

theorem packed_yields {args : Arguments} (hargs : args.cells ⊆ I) :
    YieldsTemp U K ctx T s I (packed args) := by
  cases args with
  | collected array => exact .pure (by grind)
  | fixed values =>
    exact reading_yields (by grind) trivial

/-- A call in the form of fixed arity, or in the form that takes an array. -/
theorem emitCall_yields {args : Arguments} {fixed : List Temp → Operation}
    {withArray : Temp → Operation} (hargs : args.cells ⊆ I) (others : List Temp)
    (havailable : ∀ t ∈ others, .temp t ∈ I)
    (hfixed : ∀ ts, ReadsTemps (fixed ts) ∧ (fixed ts).uses = others ++ ts)
    (harray : ∀ t, ReadsTemps (withArray t) ∧ (withArray t).uses = others ++ [t]) :
    YieldsTemp U K ctx T s I (emitCall args fixed withArray) := by
  have hpacked : ∀ s t J, I ⊆ J → .temp t ∈ J → ∀ result,
      Yields U K ctx (.idle T) s J (emit (.define result (withArray t)))
        fun _ => insert (.temp result) I := by
    intro s t J hJ ht result
    obtain ⟨hop, huses⟩ := harray t
    have hmem : ∀ u ∈ (withArray t).uses, .temp u ∈ J := by
      rw [huses]
      grind
    exact .weaken (.emitDefine (hop.mem hmem).1 (hop.mem hmem).2) (by grind)
  refine .bind .freshTemp fun result => .read_bind ?_
  cases args with
  | collected array =>
    exact .bind (hpacked _ _ I subset_rfl (hargs rfl) result) fun _ => .pure (by grind)
  | fixed values =>
    simp only
    split
    · obtain ⟨hop, huses⟩ := hfixed values
      have hmem : ∀ u ∈ (fixed values).uses, .temp u ∈ I := by
        rw [huses]
        grind
      exact .bind (.emitDefine (hop.mem hmem).1 (hop.mem hmem).2) fun _ => .pure (by grind)
    · refine .bind (packed_yields (by grind)) fun array => ?_
      exact .bind (hpacked _ _ _ (by grind) (.inl rfl) result) fun _ => .pure (by grind)

/-! ### Calls of values and members -/

theorem callValue_yields {args : Arguments} (hK : K ⊆ I) (hfunction : .temp function ∈ I)
    (hargs : args.cells ⊆ I) : YieldsTemp U K ctx T s I (callValue function args) := by
  refine .bind (asObject_yields (by grind)) fun f => ?_
  refine .bind (currentScopes_yields (by grind)) fun scopes {s₂ _ _} => ?_
  refine .weaken (emitCall_yields (hargs.trans (by grind)) [f, scopes] (by simp)
    (fun ts => ⟨trivial, rfl⟩) fun t => ⟨trivial, rfl⟩) (by grind)

theorem callMethodValue_yields {args : Arguments} (hK : K ⊆ I) (hfunction : .temp function ∈ I)
    (hreceiver : .temp receiver ∈ I) (hargs : args.cells ⊆ I) :
    YieldsTemp U K ctx T s I (callMethodValue function receiver args) := by
  refine .bind (currentScopes_yields (by grind)) fun scopes => ?_
  refine .bind (packed_yields (by grind)) fun array => ?_
  refine .weaken (reading_yields (by grind) trivial) (by grind)

theorem callDynamicMember_yields {args : Arguments}
    (hreceiver : .temp receiver ∈ I) (hargs : args.cells ⊆ I) :
    YieldsTemp U K ctx T s I (callDynamicMember receiver name args) := by
  refine .bind (asObject_yields (by grind)) fun r => ?_
  refine .weaken (emitCall_yields (by grind) [r] (by simp)
    (fun ts => ⟨trivial, rfl⟩) fun t => ⟨trivial, rfl⟩) (by grind)

theorem boundMethod?_yields : Keeps U K ctx T s I (boundMethod? receiver name arity) := by
  refine .read_bind (.bind storageOf_yields fun storage => ?_)
  split
  · exact .pure (by grind)
  · split
    · exact .pure (by grind)
    · exact .pure (by grind)

theorem callMember_yields {args : Arguments} (hreceiver : .temp receiver ∈ I)
    (hargs : args.cells ⊆ I) : YieldsTemp U K ctx T s I (callMember receiver name args) := by
  cases args with
  | collected array => exact callDynamicMember_yields (by grind) (by grind)
  | fixed values =>
    refine .bind boundMethod?_yields fun method => ?_
    split
    · exact callDynamicMember_yields (by grind) (by grind)
    · refine reading_yields (fun t ht => ?_) trivial
      rcases List.mem_cons.1 ht with rfl | ht
      · exact hreceiver
      · exact hargs (temp_mem_tempCells.2 ht)

theorem staticMember?_eq_some {registry : Registry}
    {operation : List Temp → Operation}
    (h : staticMember? registry object name arity = some operation) (ts : List Temp) :
    ReadsTemps (operation ts) ∧ (operation ts).uses = ts := by
  unfold staticMember? at h
  split at h
  · cases h
    exact ⟨trivial, rfl⟩
  · obtain ⟨method, -, rfl⟩ := Option.map_eq_some_iff.1 h
    exact ⟨trivial, rfl⟩
  · cases h

theorem memberCall_evaluates {receiver : Lower Temp}
    (hreceiver : Evaluates U K ctx b receiver) (heach : CollectsArgs U K ctx args each) :
    Evaluates U K ctx (b || (ctx.mayPause && Argument.anySuspends args))
      (memberCall object name args receiver each) := by
  intro T s I hK
  refine .read_bind ?_
  simp only
  split
  · rename_i operation hbound
    have hstatic : staticMember? ctx.registry object name args.length = some operation := by
      split at hbound
      · cases hbound
      · exact hbound
    refine .bind forbidSuspend_yields fun _ {s₁ h _} => ?_
    refine .bind (each_yields heach hK (forbidSuspend_ok h).2) fun ts => ?_
    obtain ⟨hop, huses⟩ := staticMember?_eq_some hstatic ts
    refine .weaken (reading_yields ?_ hop) (by grind)
    rw [huses]
    exact fun t ht => .inl (temp_mem_tempCells.2 ht)
  · refine .bind (hreceiver T s I hK) fun r => ?_
    refine .bind (arguments_yields heach (by grind)) fun args => ?_
    refine .weaken (callMember_yields (by grind) (by grind)) (by grind)

/-! ### Known callees -/

theorem knownCallee?_ok {callee : Expr} {known : Option (List Temp → Lower Temp)}
    (h : knownCallee? callee ctx s = .ok known s') :
    s' = s ∧ ∀ call, known = some call → ∀ T s I ts, K ⊆ I → tempCells ts ⊆ I →
      YieldsTemp U K ctx T s I (call ts) := by
  cases callee with
  | ident binding =>
    obtain ⟨b, s₁, hrequire, h₁⟩ := bind_ok h
    obtain ⟨hb, rfl⟩ := requireBinding_ok hrequire
    cases hkind : b.kind <;> cases hcallable : b.callable <;> cases hscope : b.functionScope <;>
      rw [hkind, hcallable, hscope] at h₁ <;> cases h₁
    case ident.function.some.some.refl callable scope =>
      refine ⟨rfl, fun call hcall T s I ts hK hts => ?_⟩
      cases hcall
      refine .bind (calleeScopes_yields hK) fun scopes => ?_
      exact .weaken (reading_yields (by grind) trivial) (by grind)
    all_goals exact ⟨rfl, by simp⟩
  | intrinsic name =>
    cases h
    refine ⟨rfl, fun call hcall T s I ts _ hts => ?_⟩
    cases hcall
    exact reading_yields (tempCells_subset.1 hts) trivial
  | _ =>
    cases h
    exact ⟨rfl, by simp⟩

theorem plainCall_evaluates {callee : Expr} {function : Lower Temp}
    (hfunction : Evaluates U K ctx b function) (heach : CollectsArgs U K ctx args each) :
    Evaluates U K ctx (b || (ctx.mayPause && Argument.anySuspends args))
      (plainCall callee args function each) := by
  intro T s I hK
  refine .bind (.lookup fun _ _ h => (knownCallee?_ok (U := U) (K := K) h).1) fun known {s₁ h _} => ?_
  split
  · rename_i call _
    refine .bind forbidSuspend_yields fun _ {s₂ hforbid _} => ?_
    refine .bind (each_yields heach hK (forbidSuspend_ok hforbid).2) fun ts {s₃ _ _} => ?_
    exact .weaken ((knownCallee?_ok h).2 call rfl T s₃ _ ts (by grind) Set.subset_union_left) (by grind)
  · refine .bind (hfunction T s₁ I hK) fun f => ?_
    refine .bind (arguments_yields heach (by grind)) fun args => ?_
    refine .weaken (callValue_yields (by grind) (by grind) (by grind)) (by grind)

/-! ### Optional calls -/

/-- Arguments that are evaluated while an operand is held leave it there. -/
def Gathers (U K : Set Cell) (ctx : Context) (args : Lower Arguments) : Prop :=
  ∀ T s I, K ⊆ I → Yields U K ctx (.idle T) s I args fun args => args.cells ∪ I

theorem optionalMethodCall_evaluates {object : Lower Temp} {args : Lower Arguments}
    (hobject : Evaluates U K ctx b object) (hargs : Gathers U K ctx args) :
    Evaluates U K ctx b (optionalMethodCall name object args) := by
  intro T s I hK
  refine .bind (hobject T s I hK) fun o => ?_
  refine .bind (asObject_yields (by grind)) fun receiver => ?_
  refine .bind (reading_yields (by grind) trivial) fun method {s₃ _ _} => ?_
  have hkeep : keep b K I ⊆ insert (.temp method) (insert (.temp receiver) (insert (.temp o)
      (keep b K I))) :=
    ((Set.subset_insert ..).trans (Set.subset_insert ..)).trans (Set.subset_insert ..)
  refine .weaken (optionally_yields (b := false) (by grind) (.inl rfl) fun T s' J hJ => ?_) (by grind)
  refine .bind (hargs T s' J (by grind)) fun args => ?_
  refine .weaken (callMethodValue_yields (by grind) (by grind) (by grind) (by grind)) (by grind)

theorem optionalCall_evaluates {args : Lower Arguments}
    (hcallee : Evaluates U K ctx b callee) (hargs : Gathers U K ctx args) :
    Evaluates U K ctx b (optionalCall callee args) := by
  intro T s I hK
  refine .bind (hcallee T s I hK) fun f {s₁ _ _} => ?_
  refine .weaken (optionally_yields (b := false) (by grind) (.inl rfl) fun T s' J hJ => ?_) (by grind)
  refine .bind (hargs T s' J (by grind)) fun args => ?_
  refine .weaken (callValue_yields (by grind) (by grind) (by grind)) (by grind)

/-! ### Constructors -/

theorem thisValue_yields : YieldsTemp U K ctx T s I thisValue := by
  refine .read_bind (.get_bind ?_)
  split
  · refine .bind throwBuiltInError_yields fun _ => ?_
    exact .weaken literal_yields (by grind)
  · exact reading_yields (by grind) trivial

theorem superCall_evaluates (heach : CollectsArgs U K ctx args each) :
    Evaluates U K ctx (ctx.mayPause && Argument.anySuspends args) (superCall args each) := by
  intro T s I hK
  refine .read_bind ?_
  split
  · exact .decline
  · refine .bind (plainArguments_yields heach (by grind)) fun ts => ?_
    refine .bind (.perform fun t ht => .inl (temp_mem_tempCells.2 ht)) fun _ => ?_
    refine .bind (.modify (.of_tables rfl) rfl) fun _ => ?_
    exact .weaken thisValue_yields (by grind)

theorem padding_yields (n : Nat) :
    Yields U K ctx (.idle T) s I (padding n) fun ts => tempCells ts ∪ I := by
  induction n generalizing s I with
  | zero => exact .pure (by grind)
  | succ n ih =>
    refine .bind literal_yields fun t => .bind ih fun ts => .pure (by grind)

theorem newClass_evaluates {className : String} (heach : CollectsArgs U K ctx args each) :
    Evaluates U K ctx (ctx.mayPause && Argument.anySuspends args)
      (newClass className args each) := by
  intro T s I hK
  refine .read_bind ?_
  split
  · exact .decline
  · split
    · exact .decline
    · refine .bind (plainArguments_yields heach (by grind)) fun ts => ?_
      refine .bind (padding_yields _) fun missing => ?_
      refine .weaken (reading_yields (fun t ht => ?_) trivial) (by grind)
      rcases List.mem_append.1 ht with ht | ht
      · exact .inr (.inl (temp_mem_tempCells.2 ht))
      · exact .inl (temp_mem_tempCells.2 ht)

theorem newIntrinsic_evaluates (heach : CollectsArgs U K ctx args each) :
    Evaluates U K ctx (ctx.mayPause && Argument.anySuspends args) (newIntrinsic name args each) := by
  intro T s I hK
  refine .bind (plainArguments_yields heach (by grind)) fun ts => ?_
  exact .weaken (reading_yields (by grind) trivial) (by grind)

theorem newValue_evaluates {args : Lower Arguments}
    (hcallee : Evaluates U K ctx b callee) (hargs : Gathers U K ctx args) :
    Evaluates U K ctx b (newValue callee args) := by
  intro T s I hK
  refine .bind (hcallee T s I hK) fun f => ?_
  refine .bind (asObject_yields (by grind)) fun callee {s₂ _ _} => ?_
  refine .bind (hargs T s₂ _ (by grind)) fun args => ?_
  refine .bind (packed_yields (by grind)) fun array => ?_
  refine .weaken (reading_yields (by grind) trivial) (by grind)

end Lower

end ScriptLowering
