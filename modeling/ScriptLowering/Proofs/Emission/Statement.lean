import ScriptLowering.Proofs.Emission.Protection

/-!
# Statements

The rules for the constructs, put together along the recursion over statements. Behind a statement
no more than the floor is available, so nothing has to be said about what its parts leave behind.
-/

namespace ScriptLowering.Lower

variable {U K I : Set Cell} {ctx : Context} {T : Targets} {s s' : Session} {b c : Bool}
  {α β : Type}
variable {suspends : Bool} {clauses : List Label → Lower Unit} {cases : List SwitchCase}
  {body : Lower Unit} {fallback : Option Label} {scope : Option ScopeId} {value : Temp}

/-! ### Switch statements -/

/-- Allocating labels that the rest of the computation places. -/
theorem Yields.freshLabels {F D H : List Label} {xs : List α} {f : List Label → Lower β}
    {O : β → Set Cell} (X : Set Cell) (hX : K ⊆ X)
    (h : ∀ ls s', ls.length = xs.length → s.Before s' →
      Yields U K ctx ⟨F, { T with near := ls.reverse.map (·, X) ++ T.near }, ls.reverse ++ D, H⟩
        s' I (f ls) O) :
    Yields U K ctx ⟨F, T, D, H⟩ s I (Lower.freshLabels xs >>= f) O := by
  induction xs generalizing s T D f with
  | nil => exact h [] s rfl (.refl s)
  | cons x xs ih =>
    have hrun : Lower.freshLabels (x :: xs) >>= f = freshLabel >>= fun l =>
        Lower.freshLabels xs >>= fun ls => f (l :: ls) := by
      simp only [Lower.freshLabels, bind_assoc, pure_bind]
    rw [hrun]
    refine .fresh fun l {s₁ hs₁} => .assign [] l F X (by grind) (ih fun ls s₂ hls hs₂ => ?_)
    have h := h (l :: ls) s₂ (by simp [hls]) (hs₁.trans hs₂)
    simpa using h

theorem switchTests_yields
    {cases : List (SwitchCase × Label)} (hK : K ⊆ I) (hvalue : .temp value ∈ I)
    (htests : ∀ p ∈ cases, ∀ t, p.1.test? = some t → Evaluates U K ctx false (lowerExpr t))
    (htyped : ∀ p ∈ cases, (p.2, K) ∈ T.near) :
    Keeps U K ctx T s I (switchTests value fallback cases) := by
  induction cases generalizing s fallback I with
  | nil => exact .pure (by grind)
  | cons p rest ih =>
    have hrest : ∀ I s fallback, K ⊆ I → .temp value ∈ I →
        Keeps U K ctx T s I (switchTests value fallback rest) :=
      fun I s fallback hK hvalue => ih hK hvalue (fun q hq => htests q (.tail _ hq))
        fun q hq => htyped q (.tail _ hq)
    obtain ⟨⟨test, body⟩, label⟩ := p
    cases test with
    | none => exact hrest I s (some label) hK hvalue
    | some test =>
      have htest := htests _ (List.mem_cons_self ..) test rfl
      refine .bind (htest _ _ I hK) fun t => ?_
      refine .bind (asObject_yields (by grind)) fun object => ?_
      refine .bind (reading_yields (by grind) trivial) fun matched {s₃ _ _} => ?_
      refine .bind (.branchIf ⟨htyped _ (List.mem_cons_self ..), hK.trans (by grind), Set.mem_insert ..⟩)
        fun _ {s₄ _ _} => ?_
      exact .weaken (hrest _ s₄ fallback (hK.trans (by grind)) (by grind)) (by grind)

/-- The label of the default clause is the label of a clause. -/
theorem switchTests_ok {cases : List (SwitchCase × Label)}
    {result : Option Label} (h : switchTests value fallback cases ctx s = .ok result s') {l : Label}
    (hl : result = some l) : fallback = some l ∨ l ∈ cases.map Prod.snd := by
  induction cases generalizing s fallback with
  | nil =>
    cases h
    exact .inl hl
  | cons p rest ih =>
    obtain ⟨⟨test, body⟩, label⟩ := p
    cases test with
    | none =>
      rcases ih h with heq | hmem
      · exact .inr (by simp [Option.some.inj heq])
      · exact .inr (.tail _ hmem)
    | some test =>
      obtain ⟨t, s₁, -, h⟩ := bind_ok h
      obtain ⟨object, s₂, -, h⟩ := bind_ok h
      obtain ⟨matched, s₃, -, h⟩ := bind_ok h
      obtain ⟨u, s₄, -, h⟩ := bind_ok h
      exact (ih h).imp_right (List.mem_cons_of_mem _)

/-- The clauses of a `switch` and the tests in front of them, inside the scope of the statement. -/
theorem switchCode_yields {finish : Label} (hK : K ⊆ I) (hvalue : .temp value ∈ I)
    (htests : ∀ x ∈ cases, ∀ t, x.test? = some t → Evaluates U K ctx false (lowerExpr t))
    (hclauses : ∀ ls T s I, K ⊆ I → ls.length = cases.length → (∀ l ∈ ls, (l, K) ∈ T.near) →
      Yields U K { ctx with frames := .switch finish :: ctx.frames } ⟨[], T, ls, []⟩ s I
        (clauses ls) fun _ => K) :
    Yields U K ctx ⟨[finish], T, [finish], []⟩ s I
      (do
        cases.forM fun c => hoist c.body
        let labels ← freshLabels cases
        let fallback ← switchTests value none (cases.zip labels)
        branch (fallback.getD finish)
        within (.switch finish) (clauses labels)
        place finish)
      fun _ => K := by
  refine .assign [] finish [] K (by grind) ?_
  refine .bind (.forM cases fun x hx s' => hoist_yields hK) fun _ => ?_
  refine .freshLabels K subset_rfl fun ls s₂ hls _ => ?_
  have htyped : ∀ l ∈ ls, (l, K) ∈ ls.reverse.map (·, K) ++ (finish, K) :: T.near :=
    fun l hl => List.mem_append_left _ (List.mem_map_of_mem (by simpa using hl))
  refine .bind (switchTests_yields hK hvalue (fun p hp => htests p.1 (List.of_mem_zip hp).1)
    fun p hp => htyped p.2 (List.of_mem_zip hp).2) fun fallback {s₃ hfallback _} => ?_
  have htarget : (fallback.getD finish, K) ∈ ls.reverse.map (·, K) ++ (finish, K) :: T.near := by
    cases fallback with
    | none => exact (by grind)
    | some l =>
      obtain ⟨p, hp, rfl⟩ := List.mem_map.1 ((switchTests_ok hfallback rfl).resolve_left (by simp))
      exact htyped p.2 (List.of_mem_zip hp).2
  refine .bind (.branch ⟨htarget, hK⟩) fun _ => .intro fun hready => ?_
  refine .seq ls.reverse [] (fun l hl => ?_) (.due_perm (List.reverse_perm ls).symm
    (.within rfl subset_rfl (Set.subset_univ _) hready.pause (fun l hl => ⟨K, ?_, subset_rfl⟩)
      (fun p hp hl => ?_) (hclauses ls _ _ _ (Set.subset_univ _) hls htyped)))
    fun _ s₅ _ _ => .place (by grind)
  · exact Yields.mem_labels_of_near (htyped l (by simpa using hl))
  · obtain rfl := List.mem_singleton.1 hl
    exact (by grind)
  · exact hready.fits.near p hp (List.mem_append_left _ (by simpa using hl))

theorem switchStatement_executes {discriminant : Lower Temp}
    (hdiscriminant : Evaluates U K ctx b discriminant)
    (htests : ∀ x ∈ cases, ∀ t, x.test? = some t → ∀ K' blocks,
      Evaluates U K' { ctx with blocks } (ctx.mayPause && t.suspends) (lowerExpr t))
    (hclauses : ∀ K' blocks finish ls T s I, K' ⊆ I → ls.length = cases.length →
      (∀ l ∈ ls, (l, K') ∈ T.near) →
      Yields U K' { ctx with blocks, frames := .switch finish :: ctx.frames } ⟨[], T, ls, []⟩ s I
        (clauses ls) fun _ => K') :
    Executes U K ctx (switchStatement scope discriminant cases clauses) := by
  refine fun T s I hK => .read_bind ?_
  split
  · exact .decline
  rename_i hcalm
  -- no test suspends, so the discriminant outlives all of them
  have htests : ∀ x ∈ cases, ∀ t, x.test? = some t → ∀ K' blocks,
      Evaluates U K' { ctx with blocks } false (lowerExpr t) := by
    intro x hx t ht K' blocks
    refine (htests x hx t ht K' blocks).mono fun h => absurd ?_ hcalm
    rw [Bool.and_eq_true] at h ⊢
    exact ⟨Context.mayPause_imp h.1,
      List.any_eq_true.2 ⟨x, hx, by simpa [ht, Expr.optionSuspends] using h.2⟩⟩
  rcases inScope_cases ctx scope with h | ⟨id, data, -, h⟩ | h
  · refine .fresh fun finish => ?_
    refine .bind (hdiscriminant _ _ I hK) fun value => ?_
    refine .bind (asObject_yields (by grind)) fun object => ?_
    refine Yields.congr ?_ (h _ _ _)
    exact switchCode_yields (by grind) (.inl rfl)
      (fun x hx t ht => htests x hx t ht _ _) (hclauses _ _ _)
  · refine .freshHidden fun finish => ?_
    refine .bind (hdiscriminant _ _ I hK) fun value => ?_
    refine .bind (asObject_yields (by grind)) fun object => ?_
    refine Yields.congr (withObject_yields fun carrier s₄ => ?_) (h _ _ _)
    refine .weaken (switchCode_yields (Set.union_subset_union_right _ (by grind))
      (.inr (.inl rfl))
      (fun x hx t ht => htests x hx t ht _ _) (hclauses _ _ _)) (by grind)
  · refine .fresh fun finish => ?_
    refine .bind (hdiscriminant _ _ I hK) fun value => ?_
    refine .bind (asObject_yields (by grind)) fun object => ?_
    exact .of_fails fun a s' => h _ _ _ a s'

/-! ### Simple statements -/

theorem pattern_binds {mode : BindMode} {p : Pattern} (hp : ∀ x ∈ p.occurrences, x.Accepted U ctx) :
    Binds U K ctx p.holdsTarget (bindPattern mode p) := by
  obtain ⟨hself, hinner⟩ := List.forall_mem_cons.1 hp
  exact fun T s I v hK hv => .intro fun hready =>
    bindPattern_yields mode p hinner T s I v hready.base hK hv (outlives_pattern hself)

theorem declareAll_executes {kind : DeclKind} {declarators : List Declarator}
    (h : ∀ x ∈ declarators.flatMap Declarator.occurrences, x.Accepted U ctx) :
    Executes U K ctx (declareAll kind declarators) := by
  intro T s I hK
  induction declarators generalizing s I with
  | nil => exact .pure (by grind)
  | cons d rest ih =>
    rw [List.flatMap_cons, List.forall_mem_append] at h
    obtain ⟨hd, hrest⟩ := h
    obtain ⟨htarget, hinit⟩ := List.forall_mem_append.1 hd
    obtain ⟨target, init⟩ := d
    cases init with
    | some init =>
      refine .bind (lowerExpr_evaluates init hinit _ _ I hK) fun value {s₁ _ _} => ?_
      refine .bind (pattern_binds htarget _ _ _ value (by grind) (.inl rfl)) fun _ => ?_
      exact ih hrest _ _ (subset_keep (by grind))
    | none =>
      cases target with
      | binding binding =>
        rw [declareAll]
        dsimp only
        split
        · refine .bind literal_yields fun value {s₁ _ _} => ?_
          refine .bind (initBinding_yields (by grind) (by grind)) fun _ => ?_
          exact ih hrest _ _ (by grind)
        · exact ih hrest _ _ hK
      | target expr => exact .decline
      | object properties more => exact .decline
      | array elements more => exact .decline
      | withDefault inner value => exact .decline

theorem ifStatement_executes {test : Lower Temp} {consequent : Lower Unit}
    {alternate : Option (Lower Unit)} (htest : Evaluates U K ctx b test)
    (hconsequent : Executes U K ctx consequent)
    (halternate : ∀ m, alternate = some m → Executes U K ctx m) :
    Executes U K ctx (ifStatement test consequent alternate) := by
  refine fun T s I hK => .fresh fun finish => .assign [] finish [] K (by grind) ?_
  refine .bind (condition_evaluates htest _ _ I hK) fun holds {s₂ _ _} => ?_
  cases alternate with
  | none =>
    refine .bind (.branchIf (X := K) (by grind)) fun _ => ?_
    refine .bind (hconsequent _ _ _ (by grind)) fun _ => ?_
    exact .place (by grind)
  | some alternate =>
    refine .fresh fun other => .assign [] other [] K (by grind) ?_
    refine .bind (.branchIf (X := K) (by grind)) fun _ => ?_
    refine .bind (hconsequent _ _ _ (by grind)) fun _ => ?_
    refine .bind (.branch (X := K) (by grind)) fun _ => ?_
    refine .placeThen [] other [finish] (X := K) (by grind) ?_
    refine .bind (halternate alternate rfl _ _ _ subset_rfl) fun _ => ?_
    exact .place (by grind)

theorem labeledStatement_executes {name : String} (hbody : ∀ finish,
      Executes U K { ctx with frames := .labeled finish name :: ctx.frames } body) :
    Executes U K ctx (labeledStatement name body) := by
  refine fun T s I hK => .intro fun hready => .fresh fun finish => ?_
  refine .assign [] finish [] K (by grind) ?_
  refine .bind (.within rfl subset_rfl hK hready.pause (fun l hl => ⟨K, ?_, subset_rfl⟩) (by simp)
    (hbody finish _ _ _ hK)) fun _ => .place (by grind)
  obtain rfl := List.mem_singleton.1 hl
  exact (.head _) ..

theorem functionStatement_executes {binding : BindingId} {ref : FunctionRef} :
    Executes U K ctx (functionStatement binding ref) := by
  refine fun T s I hK => .get_bind ?_
  split
  · exact .weaken (declareFunction_yields hK) (by grind)
  · exact .pure (by grind)

/-! ### Admissible parts -/

/-- Parts of the source that are seen to suspend, or not, can be lowered inside the frames: no
protected region is around a suspension. -/
def MayEnclose (ctx : Context) (suspends : Bool) (frames : List Frame) : Prop :=
  ctx.isResumable = true → frames.any Frame.isNative = true → suspends = false

theorem MayEnclose.push {frames : List Frame} {frame : Frame} (h : MayEnclose ctx b frames)
    (hframe : frame.isNative = false) : MayEnclose ctx b (frame :: frames) :=
  fun hres hnative => h hres (by simpa [hframe] using hnative)

/-- The parts of the source can be lowered in these surroundings. -/
structure Admits (U : Set Cell) (ctx : Context) (parts : List Occurrence) (suspends : Bool) :
    Prop where
  parts : ∀ x ∈ parts, x.Accepted U ctx
  native : MayEnclose ctx suspends ctx.frames

namespace Admits

variable {xs ys : List Occurrence}

theorem enclosed (h : Admits U ctx xs b) (hsub : ∀ x ∈ ys, x ∈ xs) (hb : b = false → c = false)
    (blocks : OpenBlocks) {frames : List Frame} (hframes : MayEnclose ctx b frames) :
    Admits U { ctx with blocks, frames } ys c where
  parts x hx := h.parts x (hsub x hx)
  native hres hnative := hb (hframes hres hnative)

theorem part (h : Admits U ctx xs b) (hsub : ∀ x ∈ ys, x ∈ xs) (hb : b = false → c = false) :
    Admits U ctx ys c :=
  h.enclosed hsub hb ctx.blocks h.native

theorem evaluates {e : Expr} (h : ∀ x ∈ e.occurrences, x.Accepted U ctx) (K : Set Cell)
    (blocks : OpenBlocks) :
    Evaluates U K { ctx with blocks } (ctx.mayPause && e.suspends) (lowerExpr e) :=
  lowerExpr_evaluates e h

theorem binds {p : Pattern} {mode : BindMode} (h : ∀ x ∈ p.occurrences, x.Accepted U ctx)
    (K : Set Cell) (blocks : OpenBlocks) (frames : List Frame) :
    Binds U K { ctx with blocks, frames } p.holdsTarget (bindPattern mode p) :=
  pattern_binds h

end Admits

theorem hoisted_executes {body : List Stmt} (hbody : Executes U K ctx (lowerStmts body)) :
    Executes U K ctx (do hoist body; lowerStmts body) :=
  fun _ _ _ hK => .bind (hoist_yields hK) fun _ => hbody _ _ _ hK

theorem inScope_executes {code : Lower Unit}
    (h : ∀ K' blocks, Executes U K' { ctx with blocks } code) :
    Executes U K ctx (inScope scope code) := by
  refine fun _ _ _ hK => inScope_yields (h _ _ _ _ _ hK) fun id carrier s' => ?_
  exact .weaken (h _ _ _ _ _ (Set.union_subset_union_right _ hK)) (by grind)

theorem forOfStatement_executes {name : Option String} {target : LoopTarget} {iterable : Lower Temp}
    (hiterable : Evaluates U K ctx b iterable)
    (hbind : ∀ K' blocks frames, Binds U K' { ctx with blocks, frames } c (bindTarget target))
    (hcalm : MayEnclose ctx suspends ctx.frames)
    (hbody : ∀ K' blocks frames, MayEnclose ctx suspends frames →
      Executes U K' { ctx with blocks, frames } body) :
    Executes U K ctx (forOfStatement name scope target iterable suspends body) := by
  refine fun T s I hK => .read_bind ?_
  split
  · refine suspendingForOfLoop_executes hiterable (fun _ _ => hbind _ _ _) (fun _ _ _ _ => ?_) _ _ _ hK
    exact hbody _ _ _ (hcalm.push rfl)
  · rename_i hsuspends
    refine forOfLoop_executes hiterable hbind (fun _ _ _ _ => hbody _ _ _ fun hres _ => ?_) _ _ _ hK
    simpa [hres] using hsuspends

theorem tryStatement_executes {block : Lower Unit}
    {handler : Option (Temp → Lower Unit)} {finalizer : Option (Lower Unit)}
    (hcalm : MayEnclose ctx suspends ctx.frames)
    (hblock : ∀ frames, MayEnclose ctx suspends frames → Executes U K { ctx with frames } block)
    (hhandler : ∀ m, handler = some m → ∀ frames, MayEnclose ctx suspends frames →
      ExecutesWith U K { ctx with frames } m)
    (hfinalizer : ∀ m, finalizer = some m → ∀ frames, MayEnclose ctx suspends frames →
      Executes U K { ctx with frames } m) :
    Executes U K ctx (tryStatement suspends block handler finalizer) := by
  refine fun T s I hK => .read_bind ?_
  have hplain := hblock ctx.frames hcalm
  split
  · rename_i hsuspends
    obtain ⟨hres, hsuspends⟩ := Bool.and_eq_true_iff.1 hsuspends
    have hpause : ctx.mayPause = true := by
      cases hnative : ctx.frames.any Frame.isNative with
      | false => simp [Context.mayPause, hres, hnative]
      | true => simp [hcalm hres hnative] at hsuspends
    have hroute : ∀ route, MayEnclose ctx suspends (.routed route :: ctx.frames) :=
      fun route => hcalm.push rfl
    exact routedTry_executes hpause hplain (fun route => hblock _ (hroute route))
      (fun m hm => ⟨hhandler m hm _ hcalm, fun route => hhandler m hm _ (hroute route)⟩)
      (fun m hm route => hfinalizer m hm _ (hroute route)) _ _ _ hK
  · rename_i hsuspends
    have hany : ∀ frames, MayEnclose ctx suspends frames := fun frames hres _ => by
      simpa [hres] using hsuspends
    exact protectedTry_executes hplain (fun frames _ _ => hblock _ (hany _))
      (fun m hm frames _ _ => hhandler m hm _ (hany _)) (fun m hm => hfinalizer m hm _ (hany _))
      _ _ _ hK

theorem SwitchCase.mem_occurrencesList {clause : SwitchCase}
    (hclause : clause ∈ cases) {x : Occurrence} (hx : x ∈ Expr.optionOccurrences clause.test?) :
    x ∈ SwitchCase.occurrencesList cases := by
  induction cases with
  | nil => cases hclause
  | cons first rest ih =>
    obtain ⟨test, body⟩ := first
    rw [SwitchCase.occurrencesList, List.mem_append, List.mem_append]
    rcases List.mem_cons.1 hclause with rfl | hclause
    · exact .inl (.inl hx)
    · exact .inr (ih hclause)

section Try

variable {block : List Stmt} {handler : Option CatchClause} {finalizer : Option (List Stmt)}
  {scope : Option ScopeId} {param : Option Pattern} {body : List Stmt} {frames : List Frame}

theorem Admits.tryBlock (h : Admits U ctx (Stmt.tryCatch block handler finalizer).occurrences
      (Stmt.tryCatch block handler finalizer).suspends)
    (hblock : ∀ frames, Admits U { ctx with frames } (Stmt.occurrencesList block)
      (Stmt.anySuspends block) → Executes U K { ctx with frames } (lowerStmts block))
    (hframes : MayEnclose ctx (Stmt.tryCatch block handler finalizer).suspends frames) :
    Executes U K { ctx with frames } (do Lower.hoist block; lowerStmts block) := by
  have hadmits : Admits U { ctx with frames } (Stmt.occurrencesList block)
      (Stmt.anySuspends block) := by
    refine h.enclosed ?_ ?_ ctx.blocks hframes
    · rcases handler with _ | ⟨scope, _ | param, body⟩ <;> cases finalizer <;>
        simp +contextual [Stmt.occurrences]
    · rcases handler with _ | ⟨scope, param, body⟩ <;> cases finalizer <;>
        simp +contextual [Stmt.suspends]
  exact hoisted_executes (hblock frames hadmits)

theorem Admits.tryHandler
    (h : Admits U ctx (Stmt.tryCatch block (some (.clause scope param body)) finalizer).occurrences
      (Stmt.tryCatch block (some (.clause scope param body)) finalizer).suspends)
    (hbody : ∀ K' blocks frames, Admits U { ctx with blocks, frames } (Stmt.occurrencesList body)
      (Stmt.anySuspends body) → Executes U K' { ctx with blocks, frames } (lowerStmts body))
    (hframes : MayEnclose ctx
      (Stmt.tryCatch block (some (.clause scope param body)) finalizer).suspends frames) :
    ExecutesWith U K { ctx with frames }
      (catchBody scope param (do Lower.hoist body; lowerStmts body)) := by
  have hadmits : ∀ blocks, Admits U { ctx with blocks, frames } (Stmt.occurrencesList body)
      (Stmt.anySuspends body) := by
    refine fun blocks => h.enclosed ?_ ?_ blocks hframes
    · cases param <;> cases finalizer <;> simp +contextual [Stmt.occurrences]
    · cases finalizer <;> simp +contextual [Stmt.suspends]
  refine catchBody_executesWith (fun p hp K' blocks => ?_) fun K' blocks =>
    hoisted_executes (hbody K' blocks frames (hadmits blocks))
  subst hp
  refine Admits.binds (fun x hx => h.parts x ?_) K' blocks frames
  cases finalizer <;> simp [Stmt.occurrences, hx]

theorem Admits.tryFinalizer (h : Admits U ctx (Stmt.tryCatch block handler (some body)).occurrences
      (Stmt.tryCatch block handler (some body)).suspends)
    (hbody : ∀ frames, Admits U { ctx with frames } (Stmt.occurrencesList body)
      (Stmt.anySuspends body) → Executes U K { ctx with frames } (lowerStmts body))
    (hframes : MayEnclose ctx (Stmt.tryCatch block handler (some body)).suspends frames) :
    Executes U K { ctx with frames } (do Lower.hoist body; lowerStmts body) := by
  have hadmits : Admits U { ctx with frames } (Stmt.occurrencesList body)
      (Stmt.anySuspends body) := by
    refine h.enclosed ?_ ?_ ctx.blocks hframes
    · rcases handler with _ | ⟨scope, _ | param, body⟩ <;> simp +contextual [Stmt.occurrences]
    · rcases handler with _ | ⟨scope, param, body⟩ <;> simp +contextual [Stmt.suspends]
  exact hoisted_executes (hbody frames hadmits)

end Try

/-! ### The recursion over statements -/

mutual

theorem lowerStmt_executes (stmt : Stmt) : ∀ name K ctx,
    Admits U ctx stmt.occurrences stmt.suspends → Executes U K ctx (lowerStmt stmt name) := by
  intro name K ctx h
  cases stmt with
  | expr value =>
    intro T s I hK
    refine .bind (lowerExpr_evaluates value h.parts _ _ I hK) fun t => .pure (by grind)
  | declare kind declarators => exact declareAll_executes h.parts
  | functionDecl binding ref => exact functionStatement_executes
  | block scope body =>
    have hbody : ∀ blocks, Admits U { ctx with blocks } (Stmt.occurrencesList body)
        (Stmt.anySuspends body) :=
      fun blocks => h.enclosed (fun _ hx => hx) (fun hb => hb) blocks h.native
    exact inScope_executes fun K' blocks =>
      hoisted_executes (lowerStmts_executes body K' _ (hbody blocks))
  | branch test consequent alternate =>
    have htest : ∀ x ∈ test.occurrences, x.Accepted U ctx := fun x hx =>
      h.parts x (by cases alternate <;> simp [Stmt.occurrences, hx])
    have hconsequent : Admits U ctx consequent.occurrences consequent.suspends :=
      h.part (by cases alternate <;> simp +contextual [Stmt.occurrences])
        (by cases alternate <;> simp +contextual [Stmt.suspends])
    rw [lowerStmt.eq_def]
    refine ifStatement_executes (lowerExpr_evaluates test htest)
      (lowerStmt_executes consequent none K ctx hconsequent) ?_
    cases alternate with
    | none => nofun
    | some alternate =>
      rintro _ ⟨⟩
      refine lowerStmt_executes alternate none K ctx (h.part ?_ ?_)
      · simp +contextual [Stmt.occurrences]
      · simp +contextual [Stmt.suspends]
  | whileLoop test body =>
    refine whileLoop_executes (lowerExpr_evaluates test fun x hx => h.parts x ?_)
      fun finish next => lowerStmt_executes body none K _
        (h.enclosed ?_ ?_ ctx.blocks (h.native.push rfl))
    · simp [Stmt.occurrences, hx]
    · simp +contextual [Stmt.occurrences]
    · simp +contextual [Stmt.suspends]
  | doWhile body test =>
    refine doWhileLoop_executes (lowerExpr_evaluates test fun x hx => h.parts x ?_)
      fun finish next => lowerStmt_executes body none K _
        (h.enclosed ?_ ?_ ctx.blocks (h.native.push rfl))
    · simp [Stmt.occurrences, hx]
    · simp +contextual [Stmt.occurrences]
    · simp +contextual [Stmt.suspends]
  | forLoop scope init test update body =>
    rw [lowerStmt.eq_def]
    refine forLoop_executes (b := true) (fun K' blocks => ?_) (fun m hm K' blocks => ?_)
      (fun K' blocks => ?_) fun K' blocks finish next => ?_
    · cases init with
      | none => exact fun _ _ _ hK => .pure (by grind)
      | some init =>
        refine lowerStmt_executes init none K' _ (h.enclosed ?_ ?_ blocks h.native)
        · simp +contextual [Stmt.occurrences]
        · simp +contextual [Stmt.suspends]
    · obtain ⟨test, rfl, rfl⟩ := Option.map_eq_some_iff.1 hm
      refine (Admits.evaluates (fun x hx => h.parts x ?_) K' blocks).mono fun _ => rfl
      cases init <;> simp [Stmt.occurrences, Expr.optionOccurrences, hx]
    · cases update with
      | none => exact fun _ _ _ hK => .pure (by grind)
      | some update =>
        intro T s I hK
        refine .bind (Admits.evaluates (fun x hx => h.parts x ?_) K' blocks _ _ I hK)
          fun t => .pure (by grind)
        cases init <;> simp [Stmt.occurrences, Expr.optionOccurrences, hx]
    · refine lowerStmt_executes body none K' _ (h.enclosed ?_ ?_ blocks (h.native.push rfl))
      · cases init <;> simp +contextual [Stmt.occurrences]
      · cases init <;> simp +contextual [Stmt.suspends]
  | forIn scope target object body =>
    refine forInLoop_executes (lowerExpr_evaluates object fun x hx => h.parts x ?_)
      (fun K' blocks => Admits.binds (fun x hx => h.parts x ?_) K' blocks ctx.frames)
      fun K' blocks finish next => lowerStmt_executes body none K' _
        (h.enclosed ?_ ?_ blocks (h.native.push rfl))
    · simp [Stmt.occurrences, hx]
    · simp [Stmt.occurrences, hx]
    · simp +contextual [Stmt.occurrences]
    · simp +contextual [Stmt.suspends]
  | forOf scope target iterable body =>
    have hb : (Stmt.forOf scope target iterable body).suspends = false → body.suspends = false := by
      simp +contextual [Stmt.suspends]
    refine forOfStatement_executes (lowerExpr_evaluates iterable fun x hx => h.parts x ?_)
      (Admits.binds fun x hx => h.parts x ?_) (fun hres hnative => hb (h.native hres hnative))
      fun K' blocks frames hframes => lowerStmt_executes body none K' _ ?_
    · simp [Stmt.occurrences, hx]
    · simp [Stmt.occurrences, hx]
    · exact ⟨fun x hx => h.parts x (by simp [Stmt.occurrences, hx]), hframes⟩
  | switch scope discriminant cases =>
    have hsub : ∀ x ∈ SwitchCase.occurrencesList cases,
        x ∈ (Stmt.switch scope discriminant cases).occurrences := by
      simp +contextual [Stmt.occurrences]
    have hcases : ∀ blocks frames, MayEnclose ctx (Stmt.switch scope discriminant cases).suspends frames →
        Admits U { ctx with blocks, frames } (SwitchCase.occurrencesList cases)
          (SwitchCase.anySuspends cases) :=
      fun blocks frames hframes =>
        h.enclosed hsub (by simp +contextual [Stmt.suspends]) blocks hframes
    refine switchStatement_executes (lowerExpr_evaluates discriminant fun x hx => h.parts x ?_)
      (fun clause hclause t ht K' blocks => ?_)
      fun K' blocks finish => lowerClauses_yields cases K' _ (hcases blocks _ (h.native.push rfl))
    · simp [Stmt.occurrences, hx]
    · refine Admits.evaluates (fun x hx => h.parts x (hsub x ?_)) K' blocks
      exact SwitchCase.mem_occurrencesList hclause (by simpa [ht, Expr.optionOccurrences] using hx)
  | labeled label body =>
    have hbody : Admits U ctx body.occurrences body.suspends := h
    by_cases hloop : body.isLoop = true
    · have hrun : lowerStmt (.labeled label body) name = lowerStmt body (some label) := by
        rw [lowerStmt, if_pos hloop]
      rw [hrun]
      exact lowerStmt_executes body (some label) K ctx hbody
    · have hrun : lowerStmt (.labeled label body) name
          = labeledStatement label (lowerStmt body none) := by
        rw [lowerStmt, if_neg hloop]
      rw [hrun]
      exact labeledStatement_executes fun finish => lowerStmt_executes body none K _
        (hbody.enclosed (fun _ hx => hx) (fun hb => hb) ctx.blocks (hbody.native.push rfl))
  | breakTo target => exact fun _ _ _ _ => .weaken breakTo_yields (by grind)
  | continueTo target =>
    exact fun _ _ _ _ => .weaken continueTo_yields (by grind)
  | ret value =>
    intro T s I hK
    cases value with
    | none =>
      refine .bind literal_yields fun t => ?_
      exact .weaken (returnValue_yields (by grind)) (by grind)
    | some value =>
      refine .bind (lowerExpr_evaluates value h.parts _ _ I hK) fun t => ?_
      exact .weaken (returnValue_yields (by grind)) (by grind)
  | raise value =>
    intro T s I hK
    refine .bind (lowerExpr_evaluates value h.parts _ _ I hK) fun t => ?_
    exact .weaken (throwValue_yields (by grind)) (by grind)
  | tryCatch block handler finalizer =>
    rw [lowerStmt.eq_def]
    refine tryStatement_executes h.native (fun _ => h.tryBlock fun frames hadmits =>
      lowerStmts_executes block K { ctx with frames } hadmits) ?_ ?_
    · cases handler with
      | none => nofun
      | some clause =>
        obtain ⟨scope, param, body⟩ := clause
        rintro _ ⟨⟩ frames
        exact h.tryHandler fun K' blocks frames hadmits =>
          lowerStmts_executes body K' { ctx with blocks, frames } hadmits
    · cases finalizer with
      | none => nofun
      | some body =>
        rintro _ ⟨⟩ frames
        exact h.tryFinalizer fun frames hadmits =>
          lowerStmts_executes body K { ctx with frames } hadmits
  | empty => exact fun _ _ _ hK => .pure (by grind)

theorem lowerStmts_executes (body : List Stmt) : ∀ K ctx,
    Admits U ctx (Stmt.occurrencesList body) (Stmt.anySuspends body) →
    Executes U K ctx (lowerStmts body) := by
  intro K ctx h T s I hK
  cases body with
  | nil => exact .pure (by grind)
  | cons stmt rest =>
    have hstmt : Admits U ctx stmt.occurrences stmt.suspends :=
      h.part (fun x hx => List.mem_append_left _ hx) (by simp +contextual [Stmt.anySuspends])
    have hrest : Admits U ctx (Stmt.occurrencesList rest) (Stmt.anySuspends rest) :=
      h.part (fun x hx => List.mem_append_right _ hx) (by simp +contextual [Stmt.anySuspends])
    refine .bind (lowerStmt_executes stmt none K ctx hstmt _ _ I hK) fun _ => ?_
    exact lowerStmts_executes rest K ctx hrest _ _ _ subset_rfl

theorem lowerClauses_yields (cases : List SwitchCase) : ∀ K ctx,
    Admits U ctx (SwitchCase.occurrencesList cases) (SwitchCase.anySuspends cases) →
    ∀ ls T s I, K ⊆ I → ls.length = cases.length → (∀ l ∈ ls, (l, K) ∈ T.near) →
    Yields U K ctx ⟨[], T, ls, []⟩ s I (lowerClauses ls cases) fun _ => K := by
  intro K ctx h ls T s I hK hls htyped
  cases cases with
  | nil =>
    obtain rfl := List.length_eq_zero_iff.1 hls
    exact .pure (by grind)
  | cons clause rest =>
    obtain ⟨test, body⟩ := clause
    cases ls with
    | nil => simp at hls
    | cons l ls =>
      have hbody : Admits U ctx (Stmt.occurrencesList body) (Stmt.anySuspends body) :=
        h.part (by simp +contextual [SwitchCase.occurrencesList])
          (by simp +contextual [SwitchCase.anySuspends])
      have hrest : Admits U ctx (SwitchCase.occurrencesList rest) (SwitchCase.anySuspends rest) :=
        h.part (by simp +contextual [SwitchCase.occurrencesList])
          (by simp +contextual [SwitchCase.anySuspends])
      refine .placeThen [] l ls (X := K) (by grind) ?_
      refine .bind (lowerStmts_executes body K ctx hbody _ _ _ subset_rfl) fun _ {s₂ _ _} => ?_
      exact lowerClauses_yields rest K ctx hrest ls T s₂ K subset_rfl (by simpa using hls)
        fun l' hl' => htyped l' (.tail _ hl')

end

end ScriptLowering.Lower
