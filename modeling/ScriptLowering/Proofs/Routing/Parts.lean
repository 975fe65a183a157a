import ScriptLowering.Proofs.Routing.Stretch

/-!
# Runs inside runs

The lowering of a statement is a run of its own inside the lowering of what is around it. It starts
behind what was emitted before and ends in front of what follows, and its context is the one around
it with some further frames.

## Main definitions

* `Lower.Site.Within`: a run is a part of another one;
* `Lower.lowerBody`, `Lower.lowerCatch`: the lowering of the parts of a `try` statement.
-/

namespace ScriptLowering.Lower

open Simulation

variable {stmt : Stmt} {stmts : List Stmt}

instance : Growing freshLabel :=
  .of_relates [] freshLabel_relates

instance : Growing undefined :=
  .of_relates [] undefined_relates

instance (e : Expr) : Growing (lowerExpr e) :=
  .of_relates [] (lowerExpr_relates e (resolves_of_none rfl rfl e) _)

instance (stmts : List Stmt) : Growing (hoist stmts) :=
  .of_relates [] (hoist_relates (resolves_of_none rfl rfl stmts))

instance (stmt : Stmt) (name : Option String) : Growing (lowerStmt stmt name) :=
  .of_relates [] (lowerStmt_relates stmt (resolves_of_none rfl rfl stmt) name _)

instance (stmts : List Stmt) : Growing (lowerStmts stmts) :=
  .of_relates [] (lowerStmts_relates stmts (resolves_of_none rfl rfl stmts) _)

/-- The lowering of the statements between two braces. -/
def lowerBody (body : List Stmt) : Lower Unit := do
  hoist body
  lowerStmts body

instance (body : List Stmt) : Growing (lowerBody body) := by
  unfold lowerBody
  infer_instance

/-- The lowering of a `catch` clause. -/
def lowerCatch : CatchClause → Temp → Lower Unit
  | .clause scope param body => catchBody scope param (lowerBody body)

instance (clause : CatchClause) (t : Temp) : Growing (lowerCatch clause t) := by
  obtain ⟨scope, param, body⟩ := clause
  have hstmts : growth.simulation.Resolves body := resolves_of_none rfl rfl body
  have hbody : ∀ D, growth.simulation.Follows D (lowerBody body) := fun D =>
    .bind_same (hoist_relates hstmts) fun _ => lowerStmts_relates body hstmts _
  exact .of_relates [t] (catchBody_costs (c := fun _ => 0) (resolves_of_none rfl rfl scope)
    (resolves_of_none rfl rfl _) (fun D => (hbody D).costs) _ _ _ (.head _)).relates

/-- The run is a part of another one, inside further frames. -/
structure Site.Within {m m' : Lower Unit} (d : Site m) (b : Site m') (inner : List Frame) : Prop where
  ctx : d.ctx = { b.ctx with frames := inner ++ b.ctx.frames, blocks := d.ctx.blocks }
  before : b.before.Grows d.before
  after : d.after.Grows b.after

/-- Each statement of a list is lowered in the lowering of the list. -/
theorem lowerStmts_within (a : Site (lowerStmts stmts)) (h : stmt ∈ stmts) :
    ∃ d : Site (lowerStmt stmt none), d.Within a [] := by
  obtain ⟨ctx, s, s', hrun⟩ := a
  induction stmts generalizing s with
  | nil => cases h
  | cons first rest ih =>
    obtain ⟨_, s₁, h₁, h₂⟩ := bind_ok hrun
    rcases List.mem_cons.1 h with rfl | h
    · exact ⟨⟨ctx, s, s₁, h₁⟩, rfl, .refl s, Growing.grows h₂⟩
    · obtain ⟨d, hd⟩ := ih h s₁ h₂
      exact ⟨d, hd.ctx, (Growing.grows h₁).trans hd.before, hd.after⟩

theorem lowerBody_within (a : Site (lowerBody stmts)) (h : stmt ∈ stmts) :
    ∃ d : Site (lowerStmt stmt none), d.Within a [] := by
  obtain ⟨_, s₁, h₁, h₂⟩ := bind_ok a.run
  obtain ⟨d, hd⟩ := lowerStmts_within ⟨a.ctx, s₁, a.after, h₂⟩ h
  exact ⟨d, hd.ctx, (Growing.grows h₁).trans hd.before, hd.after⟩

end ScriptLowering.Lower
