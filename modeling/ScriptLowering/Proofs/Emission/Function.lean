import ScriptLowering.Proofs.Emission.Statement

/-!
# Functions

The parameters and the entry of a function are lowered like statements. What comes last, the shared
exit, has no place in the logic: its label was set aside when the first return needed it. Here the
account of that label is closed.
-/

namespace ScriptLowering

namespace Lower

variable {U K I : Set Cell} {ctx : Context} {T : Targets} {s s' : Session} {b : Bool}
variable {params : List Param} {index : Nat}

/-! ### Parameters -/

theorem argumentDefault_yields {default : Lower Temp} (hK : K ⊆ I)
    (hdefault : Evaluates U K ctx b default) :
    Yields U K ctx (.idle T) s I (argumentDefault index default) fun _ => K := by
  refine .fresh fun skip => .assign [] skip [] K (by grind) ?_
  refine .bind (reading_yields (by grind) trivial) fun argument => ?_
  refine .bind (reading_yields (by grind) trivial)
    fun isUndefined {s₃ _ _} => ?_
  refine .bind (.branchIf (X := K) (by grind)) fun _ => ?_
  refine .bind (hdefault _ _ _ (by grind)) fun value => ?_
  refine .bind (asObject_yields (by grind)) fun object => ?_
  refine .bind (.perform (by simp [Effect.uses])) fun _ => ?_
  exact .place (by grind)

theorem livesInArgument_yields {p : Pattern} : Keeps U K ctx T s I (livesInArgument p) := by
  cases p with
  | binding binding =>
    refine .bind placement_yields fun place => ?_
    split <;> exact .pure (by grind)
  | _ => exact .pure (by grind)

theorem parameter_executes {param : Param} (h : ∀ x ∈ param.occurrences, x.Accepted U ctx) :
    Executes U K ctx (parameter index param) := by
  obtain ⟨htarget, hdefault⟩ := List.forall_mem_append.1 h
  intro T s I hK
  unfold parameter
  split
  · exact .decline
  refine .bind livesInArgument_yields fun inPlace => ?_
  obtain ⟨target, default⟩ := param
  cases inPlace with
  | true =>
    cases default with
    | none => exact .pure (by grind)
    | some default => exact argumentDefault_yields hK (lowerExpr_evaluates default hdefault)
  | false =>
    refine .bind (reading_yields (by grind) trivial)
      fun argument {s₂ _ _} => ?_
    cases default with
    | none =>
      exact .weaken (pattern_binds htarget _ _ _ argument (by grind) (.inl rfl)) (by grind)
    | some default =>
      refine .bind (valueOrDefault_yields (by grind) (.inl rfl)
        (lowerExpr_evaluates default hdefault)) fun value {s₃ _ _} => ?_
      exact .weaken (pattern_binds htarget _ _ _ value (by grind) (.inl rfl)) (by grind)

theorem parameters_executes (h : ∀ x ∈ params.flatMap Param.occurrences, x.Accepted U ctx) :
    Executes U K ctx (parameters index params) := by
  intro T s I hK
  induction params generalizing index s I with
  | nil => exact .pure (by grind)
  | cons param rest ih =>
    rw [List.flatMap_cons, List.forall_mem_append] at h
    exact .bind (parameter_executes h.1 _ _ _ hK) fun _ =>
      ih h.2 _ _ subset_rfl

/-! ### Entry -/

/-- The dispatch on the resume state. -/
theorem dispatch_yields {l : Label} {X : Set Cell} (hl : (l, X) ∈ T.near) (hX : X ⊆ I)
    (hres : ctx.isResumable) (hnative : (Jumps.ofFrames ctx.frames).isNative = false) :
    Yields U K ctx (.idle T) s I (emit (.dispatch [] l)) fun _ => Set.univ :=
  .jump (.inr (.inr rfl)) (.inr (.inl (Yields.mem_labels_of_near hl)))
    (fun _ _ => ⟨hres, rfl, hnative, Yields.mem_jumps_of_near hl⟩)
    fun _ _ hΛ hI _ => (hΛ.typed _ (Yields.mem_all_of_near hl)).trans_subset (hX.trans hI)

theorem resumableEntry_executes (hres : ctx.isResumable)
    (hnative : (Jumps.ofFrames ctx.frames).isNative = false)
    (h : ∀ x ∈ params.flatMap Param.occurrences, x.Accepted U ctx) :
    Executes U K ctx (resumableEntry params) := by
  refine fun T s I hK => .fresh fun start => .assign [] start [] K (by grind) ?_
  refine .bind (dispatch_yields (X := K) (by simp) hK hres hnative) fun _ => ?_
  refine .placeThen [] start [] (X := K) (by grind) ?_
  refine .fresh fun bodyStart => .assign [] bodyStart [] K (by grind) ?_
  refine .bind loadState_yields fun started => ?_
  refine .bind (.branchIf (X := K) (by grind)) fun _ => ?_
  refine .bind setFlag_yields fun _ => ?_
  refine .bind (parameters_executes h _ _ _ (by grind)) fun _ => ?_
  exact .place (by grind)

theorem plainEntry_executes (h : ∀ x ∈ params.flatMap Param.occurrences, x.Accepted U ctx) :
    Executes U K ctx (plainEntry params) := by
  refine fun T s I hK => .read_bind ?_
  dsimp only
  split
  · refine .bind (.perform (by simp [Effect.uses])) fun _ => ?_
    exact parameters_executes h _ _ _ hK
  · exact parameters_executes h _ _ _ hK

/-- Everything in front of the shared exit. -/
def functionBody : Lower Unit := do
  let function := (← read).function
  report (.started function.name function.isResumable)
  if function.isResumable then resumableEntry function.params else plainEntry function.params
  hoist function.body
  lowerStmts function.body
  returnValue (← undefined)

theorem functionBody_yields (hframes : ctx.frames = []) (hK : K ⊆ I)
    (h : ∀ x ∈ ctx.function.occurrences, x.Accepted U ctx) :
    Yields U K ctx (.idle T) s I functionBody fun _ => Set.univ := by
  obtain ⟨hparams, hbody⟩ := List.forall_mem_append.1 h
  have hadmits : Admits U ctx (Stmt.occurrencesList ctx.function.body)
      (Stmt.anySuspends ctx.function.body) :=
    ⟨hbody, fun _ hnative => by simp [hframes] at hnative⟩
  have hrest : ∀ T s I, K ⊆ I → Yields U K ctx (.idle T) s I
      (do
        hoist ctx.function.body
        lowerStmts ctx.function.body
        returnValue (← undefined))
      fun _ => Set.univ := by
    intro T s I hK
    refine .bind (hoist_yields hK) fun _ => ?_
    refine .bind (lowerStmts_executes _ _ _ hadmits _ _ _ hK) fun _ => ?_
    exact .bind literal_yields fun t => returnValue_yields (by grind)
  refine .read_bind ?_
  refine .bind (.modify (.of_tables rfl) rfl) fun _ => ?_
  split
  · rename_i hres
    refine .bind (resumableEntry_executes hres (by simp [hframes, Jumps.ofFrames]) hparams _ _ _ hK)
      fun _ => hrest _ _ _ subset_rfl
  · exact .bind (plainEntry_executes hparams _ _ _ hK) fun _ => hrest _ _ _ subset_rfl

/-- Behind the body come the shared exit and a report. -/
theorem wholeFunction_ok {u : Unit} (h : wholeFunction ctx s = .ok u s') :
    ∃ s₁ s₂, functionBody ctx s = .ok () s₁ ∧ placeSharedExit ctx s₁ = .ok () s₂ ∧
      s' = { s₂ with events := s'.events } := by
  have hrest : ∀ {s₀ s'}, (do
      hoist ctx.function.body
      lowerStmts ctx.function.body
      returnValue (← undefined)
      placeSharedExit
      let s ← get
      report (.lowered ctx.function.name s.code.size s.temps.size)) ctx s₀ = .ok u s' →
      ∃ s₁ s₂, (do
        hoist ctx.function.body
        lowerStmts ctx.function.body
        returnValue (← undefined)) ctx s₀ = .ok () s₁ ∧ placeSharedExit ctx s₁ = .ok () s₂ ∧
        s' = { s₂ with events := s'.events } := by
    intro s₀ s' h
    obtain ⟨_, s₁, h₁, h⟩ := bind_ok h
    obtain ⟨_, s₂, h₂, h⟩ := bind_ok h
    obtain ⟨t, s₃, h₃, h⟩ := bind_ok h
    obtain ⟨_, s₄, h₄, h⟩ := bind_ok h
    obtain ⟨_, s₅, h₅, h⟩ := bind_ok h
    refine ⟨s₄, s₅, ?_, h₅, ?_⟩
    · rw [bind_run h₁, bind_run h₂, bind_run h₃]
      exact h₄
    · cases h
      rfl
  obtain ⟨_, s₀, hreport, h⟩ := bind_ok (read_ok h)
  split at h
  · rename_i hres
    obtain ⟨_, s₁, hentry, h⟩ := bind_ok h
    obtain ⟨s₂, s₃, hbody, hexit⟩ := hrest h
    refine ⟨s₂, s₃, ?_, hexit⟩
    show (report _ >>= fun _ => ite _ _ _) ctx s = _
    rw [bind_run hreport, if_pos hres, bind_run hentry]
    exact hbody
  · rename_i hres
    obtain ⟨_, s₁, hentry, h⟩ := bind_ok h
    obtain ⟨s₂, s₃, hbody, hexit⟩ := hrest h
    refine ⟨s₂, s₃, ?_, hexit⟩
    show (report _ >>= fun _ => ite _ _ _) ctx s = _
    rw [bind_run hreport, if_neg hres, bind_run hentry]
    exact hbody

end Lower

/-! ### Labels of the code -/

/-- The label that the instruction places. -/
def Instr.placed : Instr → List Label
  | .label l => [l]
  | _ => []

/-- The labels that the code places, in order. -/
def placedLabels (code : List Instr) : List Label :=
  code.flatMap Instr.placed

@[simp] theorem placedLabels_nil : placedLabels [] = [] := rfl

@[simp] theorem placedLabels_cons (i : Instr) (c : List Instr) :
    placedLabels (i :: c) = i.placed ++ placedLabels c := rfl

@[simp] theorem placedLabels_append (c d : List Instr) :
    placedLabels (c ++ d) = placedLabels c ++ placedLabels d :=
  List.flatMap_append

theorem mem_placedLabels {c : List Instr} {l : Label} : l ∈ placedLabels c ↔ .label l ∈ c := by
  induction c with
  | nil => simp
  | cons i c ih =>
    rw [placedLabels_cons, List.mem_append, List.mem_cons, ih]
    cases i <;> simp [Instr.placed]

theorem Item.tally_eq (x : Item) (n : Nat) :
    x.tally n = (placedLabels x.code).count ⟨n⟩ + (x.exits.map (·.label)).count ⟨n⟩ := by
  have heq : ∀ l : Label, (l == (⟨n⟩ : Label)) = decide (l.index = n) := by
    intro l
    rw [Bool.eq_iff_iff, beq_iff_eq, decide_eq_true_iff]
    exact ⟨fun h => h ▸ rfl, fun h => h ▸ rfl⟩
  cases x with
  | instr i => cases i <;> simp [tally, code, exits, Instr.placed, List.count_cons, heq]
  | point p => rfl
  | exit e => simp [tally, code, exits, List.count_cons, heq]

/-- The tally counts the labels that are placed and those that are set aside. -/
theorem Outline.tally_eq (o : Outline) (n : Nat) :
    o.tally n = (placedLabels o.code).count ⟨n⟩ + (o.exits.map (·.label)).count ⟨n⟩ := by
  have hregion : ∀ l : Label, (if l.index = n then 1 else 0) = [l].count (⟨n⟩ : Label) := by
    intro l
    exact Item.tally_eq (.instr (.label l)) n
  have hopening : ∀ t, placedLabels (handlerOpening t) = [] := by
    intro t
    cases t <;> rfl
  have hclosing : ∀ t, placedLabels (handlerClosing t) = [] := by
    intro t
    cases t <;> rfl
  induction o with
  | nil => rfl
  | item x rest ih =>
    simp only [tally, code, exits, placedLabels_append, List.map_append, List.count_append,
      Item.tally_eq, ih]
    omega
  | region r t body handler rest ihb ihh ih =>
    simp only [tally, code, exits, placedLabels_append, placedLabels_cons, Instr.placed, hopening,
      hclosing, List.map_append, List.count_append, List.nil_append, List.append_nil, hregion, ihb,
      ihh, ih]
    omega

/-! ### Finished sessions -/

/-- The code behind the label of the shared exit. -/
def exitOutline (e : ReturnEpilogue) (value : Temp) : Outline :=
  .item (.instr (.label e.label)) (.item (.instr (.define value (.loadSlot e.slot)))
    (.single (.instr (.ret value))))

namespace Lower

variable {ctx : Context} {s s' : Session}

theorem placeSharedExit_of_none (hnone : s.epilogue = none)
    (h : placeSharedExit ctx s = .ok () s') : s' = s := by
  have h := get_ok h
  rw [hnone] at h
  cases h
  rfl

theorem placeSharedExit_of_some {e : ReturnEpilogue}
    (hsome : s.epilogue = some e) (h : placeSharedExit ctx s = .ok () s') :
    ∃ t, Yields.Calm s s' ∧ s'.code.toList = s.code.toList ++ (exitOutline e t).code := by
  have h := get_ok h
  rw [hsome] at h
  obtain ⟨_, s₁, hplace, h⟩ := bind_ok h
  obtain ⟨t, s₂, hload, hret⟩ := bind_ok h
  obtain ⟨hcalm₁, hcode₁⟩ := emit_ok hplace
  obtain ⟨storage, s₃, hstorage, hdefine⟩ := bind_ok hload
  obtain rfl : s₃ = s₁ := by
    cases hstorage
    rfl
  obtain ⟨hcalm₂, hcode₂⟩ := Yields.define_ok hdefine
  obtain ⟨hcalm₃, hcode₃⟩ := emit_ok hret
  refine ⟨t, (hcalm₁.trans hcalm₂).trans hcalm₃, ?_⟩
  simp [hcode₃, hcode₂, hcode₁, exitOutline, Outline.code, Outline.single, Item.code]

end Lower

/-- What holds of a finished session. -/
structure Finished (U : Set Cell) (ctx : Context) (s : Session) (o : Outline) : Prop where
  code : s.code.toList.map Instr.unfused = o.code
  regions : s.regions.toList = o.regions
  points : s.resumePoints.toList = o.points
  nodup : (placedLabels o.code).Nodup
  bound : ∀ l ∈ placedLabels o.code, l.index < s.labelCount
  exit : ∀ e, s.epilogue = some e → e.label ∈ o.tops
  legal : o.Legal ctx.function s ((Jumps.ofFrames []).withLabels o.tops)
  flow : s.Exempts U → ∃ Λ : Typing, (∀ l, U ⊆ Λ l) ∧ o.Certified U Λ ∧ Flow.Ok U Λ U U o.code

section Finish

variable {U : Set Cell} {ctx : Context} {s s₁ z : Session} {o : Outline}
variable {function : Function} {L : Locals} {options : Options} {registry : Registry}
  {e : ReturnEpilogue} {tree : ScopeTree} {I K O : Set Cell} {t : Temp}

theorem Piece.nodup (p : Piece U K ctx L s s₁ o I O) :
    (placedLabels o.code).Nodup ∧ ∀ e ∈ o.exits, e.label ∉ placedLabels o.code := by
  refine ⟨List.nodup_iff_count_le_one.2 fun l => ?_, fun e he hmem => ?_⟩
  · have htally := (p.tally l.index).1
    rw [Outline.tally_eq] at htally
    exact (Nat.le_add_right ..).trans htally
  · have htally : (placedLabels o.code).count e.label + (o.exits.map (·.label)).count e.label ≤ 1 :=
      Outline.tally_eq o e.label.index ▸ (p.tally e.label.index).1
    have hplaced := List.count_pos_iff.2 hmem
    have hexit : 0 < (o.exits.map (·.label)).count e.label :=
      List.count_pos_iff.2 (List.mem_map_of_mem he)
    omega

theorem Piece.bound (p : Piece U K ctx L s s₁ o I O)
    (hL : L.unplaced = []) : ∀ l ∈ placedLabels o.code, l.index < s₁.labelCount := by
  intro l hl
  have hcount := List.count_pos_iff.2 hl
  have htally : o.tally l.index ≠ 0 := by
    rw [Outline.tally_eq]
    exact (Nat.add_pos_left hcount _).ne'
  rcases (p.tally l.index).2 htally with ha | hmem
  · exact ha.2
  · simp [hL] at hmem

/-- The jumps from the outermost level of a function lead to labels on that level. -/
theorem jumps_outermost (hframes : ctx.frames = []) (labels : List Label) :
    (Locals.jumps (.idle {}) ctx labels).Le ((Jumps.ofFrames []).withLabels labels) := by
  unfold Locals.jumps
  rw [hframes]
  refine ⟨fun l hl => ?_, fun l hl => ?_, rfl, rfl⟩
  · simpa [Jumps.withLabels, Jumps.withLeaves] using hl
  · simp [Jumps.withLabels, Jumps.withLeaves, Jumps.ofFrames] at hl

/-- The typing with which the check of a function starts. -/
theorem typedFor_outermost (hframes : ctx.frames = []) : TypedFor U U ctx {} {} fun _ => U :=
  ⟨⟨fun _ => subset_rfl, by simp⟩, by simp [Context.labels, hframes], by simp [Targets.all]⟩

theorem Finished.of_none (hframes : ctx.frames = [])
    (g : Grows ctx {} s o) (p : Piece U U ctx (.idle {}) {} s o U Set.univ)
    (hnone : s.epilogue = none) (hz : Lower.Yields.Calm s z) (hcode : z.code = s.code) :
    Finished U ctx z o where
  code := by simpa [hcode] using g.code
  regions := by simpa [hz.regions] using g.regions
  points := by simpa [hz.points] using g.points
  nodup := p.nodup.1
  bound := by simpa [hz.labels] using p.bound rfl
  exit e he := by simp [hz.epilogue, hnone] at he
  legal := (p.legal z hz.before).mono (jumps_outermost hframes _)
  flow hU := by
    obtain ⟨Λ, -, hset, hcert, hok⟩ := p.flow z hz.before hU _ (typedFor_outermost hframes)
    exact ⟨Λ, hset.all, hcert, (hok U subset_rfl subset_rfl).1⟩

theorem flow_exit {Λ : Typing} {A : Set Cell}
    (hΛ : Λ e.label = insert (.slot e.slot) U) (hA : insert (.slot e.slot) U ⊆ A) :
    Flow.Ok U Λ U A (exitOutline e t).code := by
  have hU : U ⊆ insert (.slot e.slot) U := Set.subset_insert ..
  refine ⟨hU.trans hA, ⟨by simp [Instr.reads, Instr.uses], fun l hl => ?_, by simp⟩, ?_⟩
  · obtain rfl : l = e.label := by simpa [Instr.successors] using hl
    exact hΛ.trans_subset hA
  show Flow.Ok U Λ U (Λ e.label) _
  rw [hΛ]
  refine ⟨hU, ⟨by simp [Instr.reads, Operation.reads], by simp [Instr.successors], by simp⟩,
    hU.trans Set.subset_union_left, ⟨?_, by simp [Instr.successors], by simp⟩, Set.subset_univ _⟩
  simp [Instr.reads, Instr.uses, Flow.after, Instr.writes]

theorem Finished.of_some (hframes : ctx.frames = []) (g : Grows ctx {} s o)
    (p : Piece U U ctx (.idle {}) {} s o U Set.univ) (hsome : s.epilogue = some e)
    (hz : Lower.Yields.Calm s z) (hcode : z.code.toList = s.code.toList ++ (exitOutline e t).code) :
    Finished U ctx z (o ++ exitOutline e t) := by
  have hfused : (exitOutline e t).code.map Instr.unfused = (exitOutline e t).code := rfl
  have hexit : e ∈ o.exits := ((p.exit e hsome).resolve_left (by simp)).1
  have hlast : placedLabels (exitOutline e t).code = [e.label] := by
    simp [exitOutline, Outline.code, Outline.single, Item.code, Instr.placed]
  refine ⟨?_, ?_, ?_, ?_, fun l hl => ?_, fun e' he' => ?_, ?_, fun hU => ?_⟩
  · rw [hcode, List.map_append, g.code, hfused, Outline.code_append]
    simp
  · rw [hz.regions, g.regions, Outline.regions_append]
    simp [exitOutline, Outline.regions, Outline.single]
  · rw [hz.points, g.points, Outline.points_append]
    simp [exitOutline, Outline.points, Outline.single, Item.points]
  · rw [Outline.code_append, placedLabels_append]
    refine List.nodup_append.2 ⟨p.nodup.1, by simp [hlast], fun l hl l' hl' => ?_⟩
    obtain rfl : l' = e.label := by simpa [hlast] using hl'
    rintro rfl
    exact p.nodup.2 e hexit hl
  · rw [Outline.code_append, placedLabels_append, hlast, List.mem_append] at hl
    rw [hz.labels]
    rcases hl with hl | hl
    · exact p.bound rfl l hl
    · exact List.mem_singleton.1 hl ▸ g.inv.exit e hsome
  · rw [hz.epilogue, hsome] at he'
    cases he'
    simp [exitOutline, Outline.tops, Item.tops]
  · refine Outline.Legal.append ?_ ⟨trivial, trivial, rfl, trivial⟩
    refine ((p.legal z hz.before).mono (jumps_outermost hframes _)).mono ?_
    exact (Jumps.Le.refl _).withLabels fun l hl => .inr (by simp [hl])
  · obtain ⟨Λ, -, hset, hcert, hok⟩ := p.flow z hz.before hU _ (typedFor_outermost hframes)
    obtain ⟨hok, hout⟩ := hok U subset_rfl subset_rfl
    have hΛ : Λ e.label = insert (.slot e.slot) U := hset.exit e hsome
    refine ⟨Λ, hset.all, hcert.append ⟨by simp [Item.points], by simp [Item.points],
      by simp [Item.points], trivial⟩, ?_⟩
    rw [Outline.code_append]
    exact hok.append (flow_exit hΛ ((Set.subset_univ _).trans hout))

/-- The surroundings of a function body. -/
theorem ready_outermost (h : Context.ofFunction? tree registry options function = some ctx) :
    Ready U U ctx (.idle {}) {} ∧ ctx.frames = [] ∧ ctx.function = function := by
  simp only [Context.ofFunction?, Option.bind_eq_bind, Option.bind_eq_some_iff] at h
  obtain ⟨chain, -, captured, -, scope, -, h⟩ := h
  cases h
  refine ⟨⟨⟨by simp [Context.labels], by simp, by simp⟩, ?_, subset_rfl, fun _ => subset_rfl, by simp⟩,
    rfl, rfl⟩
  refine ⟨?_, ?_, by simp, ?_, ?_, ?_, ?_, ?_, ?_⟩ <;>
    simp [Locals.labels, Locals.unplaced, Targets.all]

/-- The code of a function has an outline with all the properties that a piece of code has. -/
theorem Lower.wholeFunction_finished {u : Unit}
    (hctx : Context.ofFunction? tree registry options function = some ctx)
    (haccepted : ∀ x ∈ function.occurrences, x.Accepted U ctx)
    (hrun : Lower.wholeFunction ctx {} = .ok u z) : ∃ o, Finished U ctx z o := by
  obtain ⟨hready, hframes, rfl⟩ := ready_outermost (U := U) hctx
  obtain ⟨s₁, s₂, hbody, hexit, hz⟩ := wholeFunction_ok hrun
  obtain ⟨o, g, p⟩ := functionBody_yields hframes subset_rfl haccepted hready () s₁ hbody
  have hcalm : Yields.Calm s₂ z := by
    rw [hz]
    exact .of_tables rfl
  have hcode : z.code = s₂.code := by rw [hz]
  cases hepilogue : s₁.epilogue with
  | none =>
    obtain rfl := placeSharedExit_of_none hepilogue hexit
    exact ⟨o, .of_none hframes g p hepilogue hcalm hcode⟩
  | some e =>
    obtain ⟨t, hcalm', hcode'⟩ := placeSharedExit_of_some hepilogue hexit
    exact ⟨_, .of_some hframes g p hepilogue (hcalm'.trans hcalm) (hcode ▸ hcode')⟩

end Finish

end ScriptLowering
