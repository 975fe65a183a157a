import ScriptLowering.Proofs.RoutedTry
import ScriptLowering.Proofs.Simulation.Recursion

/-!
# Statements on both sides

The statements follow every lawful simulation, as the expressions do. Some of them come at a cost:
each `try` that is routed through state fields is charged for. `Tally` keeps the account, and a
statement costs as much as it has routed `try` statements inside.

## Main definitions

* `Stmt.routes`, `Function.routes`: the number of the `try` statements that are routed.

## Main results

* `Lower.lowerStmt_costs`, `Lower.functionCode_costs`: what the lowering of statements and functions
  costs;
* `Lower.lowerStmt_relates`, `Lower.functionCode_relates`: statements and functions follow a
  simulation.
-/

namespace ScriptLowering

/-! ### Routed statements -/

mutual

/-- The number of the `try` statements in a statement that are routed: in a function that can be
suspended, those around a suspend point. -/
def Stmt.routes (resumable : Bool) : Stmt → Nat
  | .expr _ | .declare _ _ | .functionDecl _ _ | .breakTo _ | .continueTo _ | .ret _ | .raise _ | .empty => 0
  | .block _ body => Stmt.routesIn resumable body
  | .branch _ consequent alternate =>
    consequent.routes resumable + (match alternate with
      | none => 0
      | some alternate => alternate.routes resumable)
  | .whileLoop _ body | .doWhile body _ | .labeled _ body => body.routes resumable
  | .forLoop _ init _ _ body =>
    (match init with
      | none => 0
      | some init => init.routes resumable)
    + body.routes resumable
  | .forIn _ _ _ body | .forOf _ _ _ body => body.routes resumable
  | .switch _ _ cases => SwitchCase.routesIn resumable cases
  | .tryCatch body handler finalizer =>
    (if resumable && Stmt.suspends (.tryCatch body handler finalizer) then 1 else 0)
    + (Stmt.routesIn resumable body
      + (match handler with
        | none => 0
        | some (.clause _ _ handlerBody) => Stmt.routesIn resumable handlerBody)
      + (match finalizer with
        | none => 0
        | some finalBody => Stmt.routesIn resumable finalBody))

/-- The number of the routed `try` statements in a list. -/
def Stmt.routesIn (resumable : Bool) : List Stmt → Nat
  | [] => 0
  | s :: rest => s.routes resumable + Stmt.routesIn resumable rest

/-- The number of the routed `try` statements in the clauses of a `switch`. -/
def SwitchCase.routesIn (resumable : Bool) : List SwitchCase → Nat
  | [] => 0
  | .clause _ body :: rest => Stmt.routesIn resumable body + SwitchCase.routesIn resumable rest

end

/-- The number of the routed `try` statements of a function. -/
def Function.routes (f : Function) : Nat :=
  Stmt.routesIn f.isResumable f.body

namespace Lower

open Simulation

attribute [local grind =] Operation.uses Operation.withUses Effect.uses Effect.withUses
  Operation.linked_iff Effect.linked_iff List.headD_cons List.tail_cons

section Regions

variable {name : Option String} {scope : Option ScopeId} {iterable : Lower Temp}
  {body block code finalizer : Lower Unit} {bind handler : Temp → Lower Unit} {after : Label}

theorem forOfLoop_eq : forOfLoop name scope bind iterable body = (do
    let tryStart ← freshLabel
    let head ← freshLabel
    let exhausted ← freshLabel
    let handlerStart ← freshLabel
    let skipClose ← freshLabel
    let handlerEnd ← freshLabel
    let finish ← freshLabel
    let iterator ← getIterator iterable
    let iteratorCarrier ← joinCarrier "iterator" (.reference .iterator)
    storeCarrier iteratorCarrier iterator
    let doneCarrier ← joinCarrier "iteratorDone" .bool
    storeCarrier doneCarrier (← bool false)
    protect { kind := .finallyHandler, tryStart, tryEnd := handlerStart, handlerStart, handlerEnd }
      [.loop finish head name] .finallyHandler
      (forOfRange scope bind body iteratorCarrier doneCarrier head exhausted finish)
      (forOfHandler iteratorCarrier doneCarrier skipClose)
    place finish) := by
  unfold forOfLoop protect
  simp only [bind_assoc]
  rfl

theorem protectedCatch_eq : protectedCatch block handler after = (do
    let tryStart ← freshLabel
    let handlerStart ← freshLabel
    let handlerEnd ← freshLabel
    protect { kind := .catchHandler, tryStart, tryEnd := handlerStart, handlerStart, handlerEnd } []
      .guarded (do block; emit (.leave after))
      (do handler (← define .object .loadException); emit (.leave after))) :=
  rfl

theorem protectedFinally_eq : protectedFinally code finalizer = (do
    let tryStart ← freshLabel
    let handlerStart ← freshLabel
    let handlerEnd ← freshLabel
    protect { kind := .finallyHandler, tryStart, tryEnd := handlerStart, handlerStart, handlerEnd } []
      .finallyHandler code (do finalizer; emit .endFinally)) :=
  rfl

end Regions

theorem length_of_freshLabels {γ : Type} {l : List γ} {ctx : Context} {s s' : Session}
    {labels : List Label} (h : freshLabels l ctx s = .ok labels s') : labels.length = l.length := by
  induction l generalizing s s' labels with
  | nil =>
    cases h
    rfl
  | cons a l ih =>
    obtain ⟨label, s₁, hlabel, hrest⟩ := bind_ok h
    obtain ⟨labels', s₂, hlabels, hpure⟩ := bind_ok hrest
    cases hpure
    exact congrArg Nat.succ (ih hlabels)

/-- The part of a statement is like this, if it is there; if not, it costs nothing. -/
inductive Perhaps {γ : Type} (P : (Bool → Nat) → γ → Prop) : (Bool → Nat) → Option γ → Prop
  | none : Perhaps P (fun _ => 0) none
  | some {c : Bool → Nat} {a : γ} (h : P c a) : Perhaps P c (some a)

variable {Φ : Simulation} {Ψ : Tally Φ} {D : Pairing} {c d e : Bool → Nat}

section

variable [hΦ : Φ.Plain] [hΨ : Ψ.Lawful]

/-! ### Parts of statements -/

omit hΦ in
theorem within_costs {m m' : Lower Unit} {frame : Frame} (hframe : frame.isNative = false)
    (h : Ψ.Costs c D m m') : Ψ.Costs c D (within frame m) (within frame m') :=
  fun _ _ _ _ _ hctx hs hD => (h (Φ.inside [frame] hctx) hs hD).of_context fun _ _ => hΨ.within hframe

omit hΨ in
theorem decline_costs (reason : Decline) :
    Ψ.Costs c D (decline reason : Lower Unit) (decline reason) :=
  fun ctx _ w _ _ _ hs _ =>
    .error w (Nat.zero_le _) (Ψ.of_leads (Φ.refl ctx w)) (hΦ.declined reason hs)

section Parts

variable {name : Option String} {scope : Option ScopeId} {test object iterable : Lower Temp}
  {block body init update consequent finalizer code : Lower Unit} {bind handler : Temp → Lower Unit}
variable {done iterator : Carrier} {fields : PendingFields} {target : LoopTarget}

theorem inScope_costs {m m' : Lower Unit} (hscope : Φ.Resolves scope) (h : Ψ.Costs c D m m') :
    Ψ.Costs c D (inScope scope m) (inScope scope m') := by
  unfold inScope
  split
  · exact h
  rename_i id
  refine .bind_same (requireScope_relates (hscope.imp fun _ h => h _ rfl)) fun data =>
    .read_bind (fun _ _ => rfl) fun ctx => ⟨c, rfl, ?_⟩
  split
  · refine .bind_same (durableCarrier_relates _ _) fun carrier => ?_
    refine .bind_temp (createBlockObject_relates data carrier) fun _ _ => ?_
    exact fun _ _ _ _ _ hctx hs hD => ((h.mono (List.subset_cons_self _ _))
      (Φ.insideBlock (id, carrier) hctx) hs hD).of_context fun _ _ => hΨ.withinBlock
  · exact h

omit hΨ in
theorem ifStatement_costs {alternate : Option (Lower Unit)} (htest : ∀ D, Φ.Follows D test)
    (hconsequent : Ψ.Charges c consequent) (halternate : Perhaps Ψ.Charges d alternate) :
    Ψ.Costs (fun r => c r + d r) D (ifStatement test consequent alternate)
      (ifStatement test consequent alternate) := by
  refine .bind_same freshLabel_relates fun _ => .bind_temp (condition_relates (htest _)) fun _ _ => ?_
  cases halternate with
  | none =>
    exact .bind_same (branchIf_relates (by grind)) fun _ => (hconsequent _).before fun _ => place_relates _
  | some halternate =>
    refine .bind_same freshLabel_relates fun _ => .bind_same (branchIf_relates (by grind)) fun _ => ?_
    exact (hconsequent _).bind fun _ => .bind_same (branch_relates _) fun _ =>
      .bind_same (place_relates _) fun _ => (halternate _).before fun _ => place_relates _

theorem labeledStatement_costs {name : String} (h : Ψ.Charges c body) :
    Ψ.Charges c (labeledStatement name body) := fun _ =>
  .bind_same freshLabel_relates fun _ => .before (within_costs rfl (h _)) fun _ => place_relates _

/-! ### Loops -/

theorem whileLoop_costs (htest : ∀ D, Φ.Follows D test) (hbody : Ψ.Charges c body) :
    Ψ.Charges c (whileLoop name test body) := by
  intro D
  unfold whileLoop
  repeat' with_reducible first
    | refine .before (within_costs rfl (hbody _)) fun _ => ?_
    | refine .bind_temp ?_ fun _ _ => ?_
    | refine .bind_same ?_ fun _ => ?_
  all_goals grind

theorem doWhileLoop_costs (hbody : Ψ.Charges c body) (htest : ∀ D, Φ.Follows D test) :
    Ψ.Charges c (doWhileLoop name body test) := by
  intro D
  unfold doWhileLoop
  repeat' with_reducible first
    | refine .before (within_costs rfl (hbody _)) fun _ => ?_
    | refine .bind_temp ?_ fun _ _ => ?_
    | refine .bind_same ?_ fun _ => ?_
  all_goals grind

theorem forLoop_costs {test : Option (Lower Temp)} (hscope : Φ.Resolves scope)
    (hinit : Ψ.Charges c init) (htest : ∀ t, test = some t → ∀ D, Φ.Follows D t)
    (hupdate : ∀ D, Φ.Follows D update) (hbody : Ψ.Charges d body) :
    Ψ.Costs (fun r => c r + d r) D (forLoop name scope init test update body)
      (forLoop name scope init test update body) := by
  refine .bind_same freshLabel_relates fun head => .bind_same freshLabel_relates fun next =>
    .bind_same freshLabel_relates fun finish => inScope_costs hscope ((hinit _).bind fun _ => ?_)
  have hrest : Ψ.Charges d (do
      within (.loop finish next name) body
      place next
      renewBlock scope
      update
      branch head
      place finish) := fun _ =>
    .before (within_costs rfl (hbody _)) fun _ => .bind_same (place_relates _) fun _ =>
      .bind_same (renewBlock_relates hscope) fun _ => .bind_same (hupdate _) fun _ =>
        .bind_same (branch_relates _) fun _ => place_relates _
  refine .bind_same (place_relates _) fun _ => ?_
  cases test with
  | none => exact hrest _
  | some test =>
    exact .bind_temp (condition_relates (htest _ rfl _)) fun _ _ =>
      .bind_same (branchIf_relates (by grind)) fun _ => hrest _

theorem forInLoop_costs (hscope : Φ.Resolves scope) (hbind : Φ.Accepts bind)
    (hobject : ∀ D, Φ.Follows D object) (hbody : Ψ.Charges c body) :
    Ψ.Charges c (forInLoop name scope bind object body) := by
  intro D
  unfold forInLoop
  repeat' with_reducible first
    | refine .before (inScope_costs hscope ?_) fun _ => ?_
    | exact within_costs rfl (hbody _)
    | refine .bind_temp ?_ fun _ _ => ?_
    | refine .bind_same ?_ fun _ => ?_
  all_goals grind

theorem suspendingForOfLoop_costs (hscope : Φ.Resolves scope) (hbind : Φ.Accepts bind)
    (hiterable : ∀ D, Φ.Follows D iterable) (hbody : Ψ.Charges c body) :
    Ψ.Charges c (suspendingForOfLoop name scope bind iterable body) := by
  intro D
  unfold suspendingForOfLoop
  repeat' with_reducible first
    | refine .before (inScope_costs hscope ?_) fun _ => ?_
    | exact within_costs rfl (hbody _)
    | refine .bind_temp ?_ fun _ _ => ?_
    | refine .bind_same ?_ fun _ => ?_
  all_goals grind

theorem forOfRange_costs {head exhausted finish : Label} (hscope : Φ.Resolves scope)
    (hbind : Φ.Accepts bind) (hbody : Ψ.Charges c body) :
    Ψ.Charges c (forOfRange scope bind body iterator done head exhausted finish) := by
  intro D
  unfold forOfRange
  repeat' with_reducible first
    | refine .before (inScope_costs hscope ?_) fun _ => ?_
    | exact hbody _
    | refine .bind_temp ?_ fun _ _ => ?_
    | refine .bind_same ?_ fun _ => ?_
  all_goals first
    | exact hΦ.bare rfl
    | grind

theorem forOfLoop_costs (hscope : Φ.Resolves scope) (hbind : Φ.Accepts bind)
    (hiterable : ∀ D, Φ.Follows D iterable) (hbody : Ψ.Charges c body) :
    Ψ.Charges c (forOfLoop name scope bind iterable body) := by
  intro D
  rw [forOfLoop_eq]
  repeat' with_reducible first
    | refine .before ?_ fun _ => place_relates _
    | refine .bind_temp ?_ fun _ _ => ?_
    | refine .bind_same ?_ fun _ => ?_
  all_goals first
    | exact hΨ.protect (d := fun _ => 0) (by simp [Frame.isNative])
        (forOfRange_costs hscope hbind hbody) fun D => .of_relates (forOfHandler_relates D)
    | grind

theorem forOfStatement_costs {bodySuspends : Bool} (hscope : Φ.Resolves scope)
    (htarget : Φ.Resolves target) (hiterable : ∀ D, Φ.Follows D iterable) (hbody : Ψ.Charges c body) :
    Ψ.Charges c (forOfStatement name scope target iterable bodySuspends body) := by
  intro D
  have hbind : Φ.Accepts (bindTarget target) := fun t t' D h => bindTarget_relates htarget h
  refine .read_bind (fun _ _ => rfl) fun ctx => ⟨c, rfl, ?_⟩
  split
  · exact suspendingForOfLoop_costs hscope hbind hiterable hbody _
  · exact forOfLoop_costs hscope hbind hiterable hbody _

/-! ### Try statements -/

theorem catchBody_costs {param : Option Pattern} (hscope : Φ.Resolves scope)
    (hparam : Φ.Resolves (param.map BoundPattern.mk)) (hbody : Ψ.Charges c body) :
    Ψ.Accepts c (catchBody scope param body) := by
  intro t t' D h
  refine inScope_costs hscope ?_
  split
  · exact hbody D
  · exact .bind_same (bindBound_relates _ _ (hparam.imp fun _ h => h _ rfl) _ _ D h) fun _ => hbody _

theorem protectedCatch_costs {after : Label} (hblock : Ψ.Charges c block)
    (hhandler : Ψ.Accepts d handler) :
    Ψ.Charges (fun r => c r + d r) (protectedCatch block handler after) := by
  intro D
  rw [protectedCatch_eq]
  refine .bind_same freshLabel_relates fun _ => .bind_same freshLabel_relates fun _ =>
    .bind_same freshLabel_relates fun _ => hΨ.protect (by simp) (fun D => ?_) fun D => ?_
  · exact (hblock D).before fun _ => hΦ.bare rfl
  · exact .bind_temp (hΦ.define ⟨.nil, rfl⟩) fun _ _ =>
      (hhandler _ _ _ (.head _)).before fun _ => hΦ.bare rfl

theorem protectedFinally_costs (hcode : Ψ.Charges c code) (hfinalizer : Ψ.Charges d finalizer) :
    Ψ.Charges (fun r => c r + d r) (protectedFinally code finalizer) := by
  intro D
  rw [protectedFinally_eq]
  refine .bind_same freshLabel_relates fun _ => .bind_same freshLabel_relates fun _ =>
    .bind_same freshLabel_relates fun _ => hΨ.protect (by simp) hcode fun D => ?_
  exact (hfinalizer D).before fun _ => hΦ.bare rfl

theorem routed_costs {throwLabel : Label} {finallyRoute : Option FinallyRoute}
    (h : Ψ.Charges c code) : Ψ.Charges c (routed fields throwLabel finallyRoute code) := by
  intro D
  unfold routed
  refine .read_bind (fun _ _ => rfl) fun ctx => ⟨c, rfl, ?_⟩
  split
  · exact .bind_same (.bind_same hΦ.resumePoint fun _ => pure_same_relates _) fun _ =>
      within_costs rfl (h _)
  · exact within_costs rfl (h _)

omit hΨ in
theorem routedHandler_costs (h : Ψ.Accepts c handler) : Ψ.Charges c (routedHandler fields handler) :=
  fun _ => .bind_temp (loadState_relates _ _) fun _ _ => .bind_same (clearState_relates _) fun _ =>
    .bind_same (setFlag_relates _ _) fun _ => h _ _ _ (.head _)

theorem routedCatch_costs (hblock : Ψ.Charges c block) (hhandler : Ψ.Accepts d handler) :
    Ψ.Charges (fun r => c r + d r) (routedCatch fields block handler) := fun _ =>
  .bind_same freshLabel_relates fun _ => .bind_same freshLabel_relates fun _ =>
    .bind_same (clearState_relates _) fun _ => (routed_costs hblock _).bind fun _ =>
      .bind_same (branch_relates _) fun _ => .bind_same (place_relates _) fun _ =>
        (routedHandler_costs hhandler _).before fun _ => place_relates _

end Parts

omit hΦ in
/-- The start of a routed `try` is what is charged for. -/
theorem openRoute_bind_costs {k : PendingFields → Lower Unit}
    (h : ∀ fields, Ψ.Costs c D (k fields) (k fields)) :
    let code : Lower Unit := do
      let fields ← pendingFields
      report (.routed fields.exception)
      k fields
    Ψ.Costs (fun r => 1 + c r) D code code := by
  have hbind := hΨ.openRoute.bind h
  unfold openRoute at hbind
  simpa only [bind_assoc, pure_bind] using hbind

section Try

variable {block : Lower Unit} {handler : Option (Temp → Lower Unit)} (hblock : Ψ.Charges c block)
  (hhandler : Perhaps Ψ.Accepts d handler)

include hblock hhandler

theorem routedFinally_costs {fields : PendingFields} {finalizer : Lower Unit}
    (hfinalizer : Ψ.Charges e finalizer) :
    Ψ.Charges (fun r => c r + d r + e r) (routedFinally fields block handler finalizer) := by
  intro D
  unfold routedFinally
  cases hhandler with
  | none =>
    repeat' with_reducible first
      | refine .bind (routed_costs hblock _) fun _ => ?_
      | refine .before (routed_costs hfinalizer _) fun _ => ?_
      | refine .bind_temp ?_ fun _ _ => ?_
      | refine .bind_same ?_ fun _ => ?_
    all_goals grind
  | some hhandler =>
    have hcatch : Ψ.Charges d (routedHandler fields _) := routedHandler_costs hhandler
    simp only [Nat.add_assoc]
    repeat' with_reducible first
      | refine .bind (routed_costs hblock _) fun _ => ?_
      | refine .bind (routed_costs hcatch _) fun _ => ?_
      | refine .before (routed_costs hfinalizer _) fun _ => ?_
      | refine .bind_temp ?_ fun _ _ => ?_
      | refine .bind_same ?_ fun _ => ?_
    all_goals grind

variable {finalizer : Option (Lower Unit)} (hfinalizer : Perhaps Ψ.Charges e finalizer)

include hfinalizer

theorem protectedTry_costs :
    Ψ.Charges (fun r => c r + d r + e r) (protectedTry block handler finalizer) := by
  intro D
  unfold protectedTry
  refine .bind_same freshLabel_relates fun after => ?_
  cases hhandler with
  | none =>
    cases hfinalizer with
    | none =>
      exact (hblock _).before fun _ => place_relates _
    | some hfinalizer =>
      have hcode : Ψ.Charges c (do block; emit (.leave after)) := fun D =>
        (hblock D).before fun _ => hΦ.bare rfl
      exact (protectedFinally_costs hcode hfinalizer _).before fun _ => place_relates _
  | some hhandler =>
    have hcatch : Ψ.Charges (fun r => c r + d r) (protectedCatch block _ after) :=
      protectedCatch_costs hblock hhandler
    cases hfinalizer with
    | none =>
      exact (hcatch _).before fun _ => place_relates _
    | some hfinalizer =>
      exact (protectedFinally_costs hcatch hfinalizer _).before fun _ => place_relates _

theorem routedTry_costs :
    Ψ.Charges (fun r => 1 + (c r + d r + e r)) (routedTry block handler finalizer) := by
  intro D
  refine openRoute_bind_costs fun fields => ?_
  split
  · cases hhandler
    cases hfinalizer
    exact hblock D
  · cases hfinalizer
    cases hhandler with
    | some hhandler => exact routedCatch_costs (c := c) (d := d) hblock hhandler D
  · cases hfinalizer with
    | some hfinalizer => exact routedFinally_costs hblock hhandler hfinalizer D

theorem tryStatement_costs {suspends : Bool} :
    Ψ.Charges (fun r => (if r && suspends then 1 else 0) + (c r + d r + e r))
      (tryStatement suspends block handler finalizer) := by
  intro D
  refine .read_bind (fun _ _ => rfl) fun ctx => ?_
  split
  · exact ⟨_, rfl, routedTry_costs hblock hhandler hfinalizer D⟩
  · exact ⟨_, (Nat.zero_add _).symm, protectedTry_costs hblock hhandler hfinalizer D⟩

end Try

/-! ### Statements -/

theorem switchStatement_costs {scope : Option ScopeId} {discriminant : Lower Temp}
    {cases : List SwitchCase} {clauses : List Label → Lower Unit} (hscope : Φ.Resolves scope)
    (hcases : Φ.Resolves cases) (h : ∀ D, Φ.Follows D discriminant)
    (hclauses : ∀ labels : List Label, labels.length = cases.length → Ψ.Charges c (clauses labels)) :
    Ψ.Charges c (switchStatement scope discriminant cases clauses) := by
  intro D
  refine .read_bind (fun _ _ => rfl) fun ctx => ⟨c, rfl, ?_⟩
  split
  · exact decline_costs _
  refine .bind_same freshLabel_relates fun _ => .bind_temp (h _) fun _ _ => ?_
  refine .bind_temp (asObject_relates (by grind)) fun _ _ => inScope_costs hscope ?_
  refine .bind_same (forM_relates _ fun c hc => hoist_relates (hcases.imp fun _ h => (h.of_mem hc).2))
    fun _ => ?_
  refine .after (freshLabels_relates _) fun E labels labels' hlabels hrun => ?_
  obtain rfl := hlabels
  obtain ⟨_, _, _, _, _, hrun⟩ := hrun
  refine .bind_same (switchTests_relates (fun c hc => hcases.imp fun _ h =>
    (h.of_mem (List.of_mem_zip hc).1).1) (by grind)) fun _ => ?_
  refine .bind_same (branch_relates _) fun _ => ?_
  exact .before (within_costs rfl (hclauses labels (length_of_freshLabels hrun) _)) fun _ =>
    place_relates _

omit hΨ in
theorem forUpdate_relates (value : Option Expr) (D : Pairing) :
    Φ.Resolves value → Φ.Follows D (match value with
      | none => pure ()
      | some value => do let _ ← lowerExpr value : Lower Unit) := by
  intro h
  cases value with
  | none => exact pure_same_relates ()
  | some value =>
    exact .bind_temp (lowerExpr_relates value (h.imp fun _ h => h _ rfl) D) fun _ _ =>
      pure_same_relates ()

omit hΨ in
theorem block_costs {stmts : List Stmt} (hstmts : Φ.Resolves stmts) (h : Ψ.Charges c (lowerStmts stmts)) :
    Ψ.Charges c (do hoist stmts; lowerStmts stmts) := fun _ =>
  .bind_same (hoist_relates hstmts) fun _ => h _

set_option linter.unusedSectionVars false in
mutual

/-- A statement costs as much as it has routed `try` statements inside. -/
theorem lowerStmt_costs (stmt : Stmt) (h : Φ.Resolves stmt) (name : Option String) :
    Ψ.Charges (fun r => stmt.routes r) (lowerStmt stmt name) := by
  intro D
  cases stmt with
  | expr value =>
    exact .of_relates (.bind_temp (lowerExpr_relates value h D) fun _ _ => pure_same_relates ())
  | declare kind declarators => exact .of_relates (declareAll_relates h)
  | functionDecl binding ref =>
    exact .of_relates (functionStatement_relates (h.imp fun _ h => h.1) (h.imp fun _ h => h.2))
  | block scope body =>
    have hbody : Φ.Resolves body := h.imp fun _ h => h.2
    exact inScope_costs (h.imp fun _ h => h.1) (block_costs hbody (lowerStmts_costs body hbody) D)
  | branch test consequent alternate =>
    have htest := lowerExpr_relates test (h.imp fun _ h => h.1)
    have hconsequent := lowerStmt_costs consequent (h.imp fun _ h => h.2.1) none
    cases alternate with
    | none => exact ifStatement_costs htest hconsequent .none
    | some alternate =>
      exact ifStatement_costs htest hconsequent
        (.some (lowerStmt_costs alternate (h.imp fun _ h => h.2.2) none))
  | whileLoop test body =>
    exact whileLoop_costs (lowerExpr_relates test (h.imp fun _ h => h.1))
      (lowerStmt_costs body (h.imp fun _ h => h.2) none) D
  | doWhile body test =>
    exact doWhileLoop_costs (lowerStmt_costs body (h.imp fun _ h => h.2) none)
      (lowerExpr_relates test (h.imp fun _ h => h.1)) D
  | forLoop scope init test update body =>
    have htest : ∀ m, test.map lowerExpr = some m → ∀ D, Φ.Follows D m := by
      intro m hm
      obtain ⟨test, rfl, rfl⟩ := Option.map_eq_some_iff.1 hm
      exact lowerExpr_relates test (h.imp fun _ h => h.2.2.1 _ rfl)
    have hupdate D := forUpdate_relates update D (h.imp fun _ h => h.2.2.2.1)
    have hscope : Φ.Resolves scope := h.imp fun _ h => h.1
    have hbody := lowerStmt_costs body (h.imp fun _ h => h.2.2.2.2) none
    cases init with
    | none => exact forLoop_costs hscope (fun D => .of_relates (pure_same_relates ())) htest hupdate hbody
    | some init =>
      have hinit := lowerStmt_costs init (h.imp fun _ h => h.2.1) none
      exact forLoop_costs hscope hinit htest hupdate hbody
  | forIn scope target object body =>
    have htarget : Φ.Resolves target := h.imp fun _ h => h.2.1
    exact forInLoop_costs (h.imp fun _ h => h.1) (fun t t' D h => bindTarget_relates htarget h)
      (lowerExpr_relates object (h.imp fun _ h => h.2.2.1))
      (lowerStmt_costs body (h.imp fun _ h => h.2.2.2) none) D
  | forOf scope target iterable body =>
    exact forOfStatement_costs (h.imp fun _ h => h.1) (h.imp fun _ h => h.2.1)
      (lowerExpr_relates iterable (h.imp fun _ h => h.2.2.1))
      (lowerStmt_costs body (h.imp fun _ h => h.2.2.2) none) D
  | switch scope discriminant cases =>
    have hcases : Φ.Resolves cases := h.imp fun _ h => h.2.2
    exact switchStatement_costs (h.imp fun _ h => h.1) hcases
      (lowerExpr_relates discriminant (h.imp fun _ h => h.2.1))
      (fun labels hlabels => lowerClauses_costs labels cases hcases hlabels) D
  | labeled name' body =>
    show Ψ.Costs (fun r => body.routes r) D (if body.isLoop then _ else _ : Lower Unit)
      (if body.isLoop then _ else _)
    split
    · exact lowerStmt_costs body h (some name') D
    · exact labeledStatement_costs (lowerStmt_costs body h none) D
  | breakTo name => exact .of_relates (breakTo_relates name)
  | continueTo name => exact .of_relates (continueTo_relates name)
  | ret value =>
    refine .of_relates ?_
    cases value with
    | none => exact .bind_temp undefined_relates fun _ _ => returnValue_relates (by grind)
    | some value =>
      exact .bind_temp (lowerExpr_relates value (h.imp fun _ h => h _ rfl) D) fun _ _ =>
        returnValue_relates (by grind)
  | raise value =>
    exact .of_relates (.bind_temp (lowerExpr_relates value h D) fun _ _ => throwValue_relates (by grind))
  | tryCatch block handler finalizer =>
    have hstmts : Φ.Resolves block := h.imp fun _ h => h.1
    have hblock := block_costs hstmts (lowerStmts_costs block hstmts)
    rw [lowerStmt.eq_def]
    simp only [Stmt.routes.eq_def]
    refine tryStatement_costs hblock ?_ ?_ D
    · cases handler with
      | none => exact .none
      | some clause =>
        obtain ⟨scope, param, body⟩ := clause
        have hbody : Φ.Resolves body := h.imp fun _ h => h.2.1.2.2
        exact .some (catchBody_costs (h.imp fun _ h => h.2.1.1) (h.imp fun _ h => h.2.1.2.1)
          (block_costs hbody (lowerStmts_costs body hbody)))
    · cases finalizer with
      | none => exact .none
      | some body =>
        have hbody : Φ.Resolves body := h.imp fun _ h => h.2.2
        exact .some (block_costs hbody (lowerStmts_costs body hbody))
  | empty => exact .of_relates (pure_same_relates ())

theorem lowerStmts_costs (stmts : List Stmt) (h : Φ.Resolves stmts) :
    Ψ.Charges (fun r => Stmt.routesIn r stmts) (lowerStmts stmts) := by
  intro D
  cases stmts with
  | nil => exact .of_relates (pure_same_relates ())
  | cons stmt rest =>
    exact (lowerStmt_costs stmt (h.imp fun _ h => h.1) none D).bind fun _ =>
      lowerStmts_costs rest (h.imp fun _ h => h.2) D

theorem lowerClauses_costs (labels : List Label) (cases : List SwitchCase) (h : Φ.Resolves cases)
    (hlabels : labels.length = cases.length) :
    Ψ.Charges (fun r => SwitchCase.routesIn r cases) (lowerClauses labels cases) := by
  intro D
  cases cases with
  | nil => cases labels <;> exact .of_relates (pure_same_relates ())
  | cons clause rest =>
    cases labels with
    | nil => cases hlabels
    | cons label labels =>
      obtain ⟨test, body⟩ := clause
      exact .bind_same (place_relates label) fun _ =>
        (lowerStmts_costs body (h.imp fun _ h => h.2.1) D).bind fun _ =>
          lowerClauses_costs labels rest (h.imp fun _ h => h.2.2) (Nat.succ.inj hlabels) D

end

theorem functionCode_costs {function : Function} (h : Φ.Resolves function) :
    Ψ.Charges (fun r => Stmt.routesIn r function.body) (functionCode function) := fun _ =>
  have hbody : Φ.Resolves function.body := h.imp fun _ h => h.2.2
  .bind_same (entry_relates h) fun _ => .bind_same (hoist_relates hbody) fun _ =>
    (lowerStmts_costs _ hbody _).before fun _ => .bind_temp undefined_relates fun _ _ =>
      .bind_same (returnValue_relates (.head _)) fun _ => placeSharedExit_relates

end

section Relates

variable [Φ.Lawful]

theorem lowerStmt_relates (stmt : Stmt) (h : Φ.Resolves stmt) (name : Option String) (D : Pairing) :
    Φ.Follows D (lowerStmt stmt name) :=
  (lowerStmt_costs stmt h name D).relates

theorem lowerStmts_relates (stmts : List Stmt) (h : Φ.Resolves stmts) (D : Pairing) :
    Φ.Follows D (lowerStmts stmts) :=
  (lowerStmts_costs stmts h D).relates

theorem functionCode_relates {function : Function} (h : Φ.Resolves function) :
    Φ.Follows D (functionCode function) :=
  (functionCode_costs h D).relates

end Relates

end Lower

end ScriptLowering
