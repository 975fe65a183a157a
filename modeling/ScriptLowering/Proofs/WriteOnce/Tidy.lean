import ScriptLowering.Proofs.Emission.Value
import ScriptLowering.Proofs.Simulation.Discipline
import ScriptLowering.Proofs.WriteOnce.Track

/-!
# Sessions stay tidy

To leave tidy sessions tidy is a discipline, in which the temps that are defined can be used. Three
basic steps need care. `asNumber` may change the instruction that the code ends with, and a call and
a suspension allocate the temp of their result some time before they define it.
-/

namespace ScriptLowering

/-- Tidy sessions are left tidy, and what is defined can be used. -/
def tidiness : Discipline where
  leads _ s s' := s.Moves [] [] s'
  temps s t := t ∈ s.defined
  refl _ _ := .of_same (.of_eq rfl rfl rfl rfl) []
  trans h h' := h.trans h'
  temps_mono h ht := h.grows.defined ht

namespace Lower

variable {ctx : Context} {s s' : Session} {i : Instr} {t u : Temp}
variable {label : Label} {T : List Temp}

/-! ### Basic steps -/

theorem mem_defined_push (hcode : s'.code = s.code.push i) (h : i.result? = some t) :
    t ∈ s'.defined := by
  simp [Session.defined, hcode, definedTemps_snoc, h]

theorem emit_moves (h : emit i ctx s = .ok () s') (huses : i.uses ⊆ s.defined) :
    s.Moves i.result?.toList [] s' := by
  cases h
  exact .push rfl rfl rfl rfl huses

theorem define_moves {storage : Storage} {op : Operation} (h : define storage op ctx s = .ok t s')
    (huses : op.uses ⊆ s.defined) : s.Moves [] [] s' ∧ t ∈ s'.defined := by
  cases h
  exact ⟨(Session.Moves.allocate storage).trans (.push (i := .define _ op) rfl rfl rfl rfl huses),
    mem_defined_push rfl rfl⟩

theorem asObject_moves (ht : t ∈ s.defined) (h : asObject t ctx s = .ok u s') :
    s.Moves [] [] s' ∧ u ∈ s'.defined := by
  obtain ⟨storage, s₁, h₁, h₂⟩ := bind_ok h
  cases h₁
  split at h₂
  · cases h₂
    exact ⟨tidiness.refl ctx _, ht⟩
  · exact define_moves h₂ (List.cons_subset.2 ⟨ht, List.nil_subset _⟩)

/-- Fusing an addition with a conversion keeps its result and its operands. -/
theorem fuseAddition_moves {left right : Temp} (hadded : justAdded? s t = some (left, right)) :
    s.Moves [] [] (fuseAddition t left right s) := by
  obtain ⟨before, hcode⟩ := justAdded?_eq_some hadded
  have hfused : (fuseAddition t left right s).code.toList
      = before.toList ++ [.define t (.addToNumber left right)] := by
    simp [fuseAddition, hcode]
  have hdefined : (fuseAddition t left right s).defined = s.defined := by
    rw [Session.defined, Session.defined, hfused, hcode, Array.toList_push, definedTemps_snoc,
      definedTemps_snoc]
    rfl
  refine ⟨⟨hdefined ▸ List.Subset.refl _, ?_, List.prefix_refl _, le_rfl⟩, fun {P} hs => ⟨?_, ?_⟩⟩
  · rw [hfused, hcode, Array.toList_push, List.map_append, List.map_append]
    exact List.prefix_refl _
  · rw [hdefined]
    simpa [fuseAddition] using hs.perm
  · have huses := hs.uses
    rw [hcode, Array.toList_push] at huses
    rw [hfused]
    exact huses.init.1.snoc huses.init.2

theorem asNumber_moves (ht : t ∈ s.defined) (h : asNumber t ctx s = .ok u s') :
    s.Moves [] [] s' ∧ u ∈ s'.defined := by
  obtain ⟨storage, s₁, h₁, h₂⟩ := bind_ok h
  cases h₁
  split at h₂
  · cases h₂
    exact ⟨tidiness.refl ctx _, ht⟩
  replace h₂ := get_ok h₂
  cases hadded : justAdded? s t with
  | none =>
    rw [hadded] at h₂
    exact define_moves h₂ (List.cons_subset.2 ⟨ht, List.nil_subset _⟩)
  | some operands =>
    rw [hadded] at h₂
    obtain ⟨_, -, h₂⟩ := require_bind_ok (get_ok h₂)
    cases h₂
    have hmoves := fuseAddition_moves hadded
    exact ⟨hmoves, hmoves.grows.defined ht⟩

/-- The result of a call is pending while its arguments are packed. -/
theorem emitCall_moves {args : Arguments} {form : CallForm}
    (hargs : ∀ u ∈ args.temps, u ∈ s.defined) (hform : ∀ u ∈ form.temps, u ∈ s.defined)
    (h : emitCall args form.fixed form.packed ctx s = .ok t s') :
    s.Moves [] [] s' ∧ t ∈ s'.defined := by
  have hcall : ∀ {s₁ : Session} {array : Temp}, s.defined ⊆ s₁.defined → array ∈ s₁.defined →
      (form.packed array).uses ⊆ s₁.defined := by
    intro s₁ array hsub harray
    rw [form.uses_packed]
    exact List.append_subset.2 ⟨List.Subset.trans hform hsub,
      List.cons_subset.2 ⟨harray, List.nil_subset _⟩⟩
  cases args with
  | collected array =>
    cases h
    exact ⟨(Session.Moves.allocate .object).trans (.push (i := .define _ (form.packed array)) rfl rfl
      rfl rfl (hcall (List.Subset.refl _) (hargs array List.mem_cons_self))), mem_defined_push rfl rfl⟩
  | fixed values =>
    obtain ⟨result, s₁, h₁, h₂⟩ := bind_ok h
    cases h₁
    replace h₂ := read_ok h₂
    dsimp only at h₂
    split at h₂
    · cases h₂
      refine ⟨(Session.Moves.allocate .object).trans (.push (i := .define _ (form.fixed values)) rfl rfl
        rfl rfl ?_), mem_defined_push rfl rfl⟩
      show (form.fixed values).uses ⊆ s.defined
      rw [form.uses_fixed]
      exact List.append_subset.2 ⟨hform, hargs⟩
    · obtain ⟨array, s₂, h₃, h₄⟩ := bind_ok h₂
      obtain ⟨hmoves, harray⟩ := define_moves h₃ hargs
      cases h₄
      exact ⟨(Session.Moves.allocate .object).trans ((hmoves.frame _).trans
        (.push (i := .define _ (form.packed array)) rfl rfl rfl rfl
          (hcall hmoves.grows.defined harray))), mem_defined_push rfl rfl⟩

theorem storeState_moves {name : String} (ht : t ∈ s.defined)
    (h : storeState name t ctx s = .ok () s') : s.Moves [] [] s' := by
  obtain ⟨field, s₁, h₁, h₂⟩ := bind_ok h
  obtain ⟨_, s₂, h₃, h₄⟩ := bind_ok h₁
  cases h₃
  cases h₄
  have hsame : s.SameCode (if s.stateFields.contains name then s
      else { s with stateFields := s.stateFields.push name }) := by
    split <;> exact .of_eq rfl rfl rfl rfl
  refine (Session.Moves.of_same hsame []).trans (emit_moves h₂ (List.cons_subset.2 ⟨?_, List.nil_subset _⟩))
  exact hsame.grows.defined ht

theorem throwValue_moves (ht : t ∈ s.defined) (h : throwValue t ctx s = .ok () s') :
    s.Moves [] [] s' := by
  obtain ⟨u, s₁, h₁, h₂⟩ := bind_ok h
  obtain ⟨hmoves, hu⟩ := asObject_moves ht h₁
  refine hmoves.trans ?_
  replace h₂ := read_ok h₂
  have huses : [u] ⊆ s₁.defined := List.cons_subset.2 ⟨hu, List.nil_subset _⟩
  cases hregion : Frame.innermostRegion? ctx.frames with
  | none =>
    rw [hregion] at h₂
    dsimp only at h₂
    split at h₂
    · exact emit_moves h₂ huses
    · exact emit_moves h₂ huses
  | some region =>
    rw [hregion] at h₂
    cases region with
    | routed route =>
      obtain ⟨_, s₂, h₃, h₄⟩ := bind_ok h₂
      exact (storeState_moves hu h₃).trans (emit_moves h₄ (List.nil_subset _))
    | _ => exact emit_moves h₂ huses

theorem addResumePoint_moves {result : Option Temp} {kind : ResumeKind} {n : Nat}
    (h : addResumePoint label result kind ctx s = .ok n s') (Q : List Temp) : s.Moves Q Q s' := by
  refine .of_same ?_ Q
  cases h
  exact ⟨rfl, rfl, by simp, le_rfl⟩

/-- The result of a suspension is pending until the function is resumed. -/
theorem pause_moves {kind : SuspendKind} {reject : Option RejectRoute}
    (ht : t ∈ s.defined) (h : pause kind t label reject ctx s = .ok u s') :
    s.Moves [] [] s' ∧ u ∈ s'.defined := by
  obtain ⟨result, s₁, h₁, hrest₁⟩ := bind_ok h
  obtain ⟨state, s₂, h₂, hrest₂⟩ := bind_ok hrest₁
  obtain ⟨_, s₃, h₃, hrest₃⟩ := bind_ok hrest₂
  obtain ⟨_, s₄, h₄, hrest₄⟩ := bind_ok hrest₃
  cases h₁
  cases hrest₄
  have hpoint := addResumePoint_moves h₂ [⟨s.temps.size⟩]
  have hsuspend := emit_moves h₃ (List.cons_subset.2 ⟨hpoint.grows.defined ht, List.nil_subset _⟩)
  have hplace := emit_moves h₄ (List.nil_subset _)
  refine ⟨(Session.Moves.allocate .object).trans (hpoint.trans (hsuspend.trans hplace)),
    hplace.grows.defined ?_⟩
  cases h₃
  exact mem_defined_push rfl rfl

theorem protect_moves {r : ExceptionRegion} {inner : List Frame} {frame : Frame}
    {range handler : Lower Unit} (hrange : tidiness.Keeps [] (fun _ => []) range)
    (hhandler : tidiness.Keeps [] (fun _ => []) handler)
    (h : protect r inner frame range handler ctx s = .ok () s') : s.Moves [] [] s' := by
  obtain ⟨_, s₂, h₂, h⟩ := bind_ok h
  obtain ⟨_, s₁, h₁, h₂⟩ := bind_ok h₂
  obtain ⟨_, s₃, h₃, h⟩ := bind_ok h
  obtain ⟨_, s₄, h₄, h⟩ := bind_ok h
  obtain ⟨_, s₅, h₅, h⟩ := bind_ok h
  cases h
  have hlabel : ∀ {l ctx s s'}, place l ctx s = .ok () s' → s.Moves [] [] s' :=
    fun h => emit_moves h (List.nil_subset _)
  have hregion : s₅.SameCode { s₅ with regions := s₅.regions.push r } := .of_eq rfl rfl rfl rfl
  exact (hlabel h₁).trans ((hrange.ok trivial nofun h₂).1.trans ((hlabel h₃).trans
    ((hhandler.ok trivial nofun h₄).1.trans ((hlabel h₅).trans (.of_same hregion [])))))

/-- A step that hands on no temp. -/
theorem tidiness_of_moves {α : Type} {m : Lower α}
    (h : ∀ {ctx s a s'}, T ⊆ s.defined → m ctx s = .ok a s' → s.Moves [] [] s') :
    tidiness.Keeps T (fun _ => []) m :=
  .of_run (fun _ _ _ => trivial) fun hT hrun => ⟨h hT hrun, nofun⟩

/-- A step that hands on a temp. -/
theorem tidiness_of_result {m : Lower Temp}
    (h : ∀ {ctx s t s'}, T ⊆ s.defined → m ctx s = .ok t s' → s.Moves [] [] s' ∧ t ∈ s'.defined) :
    tidiness.Keeps T (fun t => [t]) m :=
  .of_run (fun _ _ _ => trivial) fun hT hrun => (h hT hrun).imp_right List.forall_mem_singleton.2

/-- The lowering leaves tidy sessions tidy. -/
theorem tidiness_lawful : tidiness.Lawful where
  within _ h := h
  withinBlock h := h
  aside _ h := .of_same (.of_eq h.code h.temps h.resumePoints h.routedCount) []
  define huses := tidiness_of_result fun hT h => define_moves h (List.Subset.trans huses hT)
  perform huses := tidiness_of_moves fun hT h => emit_moves h (List.Subset.trans huses hT)
  bare := by
    refine fun {T i} hi => tidiness_of_moves fun _ h => ?_
    cases i <;> first | exact emit_moves h (List.nil_subset _) | cases hi
  branchIf ht := tidiness_of_moves fun hT h =>
    emit_moves h (List.cons_subset.2 ⟨hT ht, List.nil_subset _⟩)
  ret ht := tidiness_of_moves fun hT h => emit_moves h (List.cons_subset.2 ⟨hT ht, List.nil_subset _⟩)
  asNumber ht := tidiness_of_result fun hT h => asNumber_moves (hT ht) h
  call _ hargs hform := tidiness_of_result fun hT h =>
    emitCall_moves (fun _ hu => hT (hargs hu)) (fun _ hu => hT (hform hu)) h
  pause _ ht := tidiness_of_result fun hT h => pause_moves (hT ht) h
  resumePoint := @fun _ _ => tidiness_of_moves fun _ h => addResumePoint_moves h []
  throwValue ht := tidiness_of_moves fun hT h => throwValue_moves (hT ht) h
  openRoute := @fun _ => tidiness_of_moves fun _ h => by
    refine .of_same ?_ []
    cases h
    exact ⟨rfl, rfl, List.prefix_refl _, Nat.le_succ _⟩
  protect _ hrange hhandler := tidiness_of_moves fun _ h => protect_moves hrange hhandler h
  declined _ _ := trivial
  tree _ := nofun
  resumable _ := nofun
  closed := nofun
  dangling _ _ := trivial

/-- The lowering of a whole function leaves its session tidy. -/
theorem wholeFunction_tidy {ctx : Context} {s : Session} (h : wholeFunction ctx {} = .ok () s) :
    s.Tidy [] := by
  rw [wholeFunction_run] at h
  obtain ⟨_, s₁, h₁, h₂⟩ := bind_ok h
  have := tidiness_lawful.simulation
  have hcode : tidiness.Keeps [] (fun _ => []) (functionCode ctx.function) :=
    .of_same (functionCode_relates (Simulation.resolves_of_none rfl rfl ctx.function))
  have hstart : Session.Tidy { events := #[.started ctx.function.name ctx.function.isResumable] } [] :=
    ⟨.refl _, .nil⟩
  cases h₂
  exact ((hcode.ok trivial nofun h₁).1.tidy hstart).congr rfl rfl

end Lower

end ScriptLowering
