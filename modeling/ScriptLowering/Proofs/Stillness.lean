import ScriptLowering.Proofs.Emission.Value
import ScriptLowering.Proofs.Simulation.Discipline

/-!
# Code without suspensions

A resumable function chooses the form of a `try` and of a `for`-`of` by an analysis of the source:
does it suspend? Where the analysis of an expression says no, no suspension comes into the code. The
analysis of a statement leaves out the patterns that the statement binds. A pattern that takes a
value apart is declined if something in it suspends; but a target that gets the whole value, as in
the head of a loop, may suspend, and then code with a suspension stands where the analysis has seen
none.

## Main results

* `Stmt.meets_still`: what the analysis says of the parts of a statement;
* `Lower.lowerStmt_still`: the lowering of expressions and statements.
-/

namespace ScriptLowering

/-! ### Statements -/

/-- No pattern among the parts hands the value that is bound to it to a target that suspends. -/
def TargetsStill (parts : List Occurrence) : Prop :=
  ∀ p, .pattern p ∈ parts → p.holdsTarget = false

theorem targetsStill_append {parts parts' : List Occurrence} :
    TargetsStill (parts ++ parts') ↔ TargetsStill parts ∧ TargetsStill parts' := by
  simp only [TargetsStill, List.mem_append, or_imp, forall_and]

theorem TargetsStill.meets {p : Pattern} (h : TargetsStill p.occurrences) :
    Meets .still (BoundPattern.mk p) :=
  h p (.head _)

theorem Expr.optionMeets_still {e : Option Expr} (h : Expr.optionSuspends e = false) :
    Resolvable.Meets .still e := by
  rintro e rfl
  exact e.meets_still h

theorem ScopeId.meets_still {scope : Option ScopeId} : Meets .still scope :=
  fun _ _ => trivial

theorem Declarator.meets_still {declarators : List Declarator}
    (h : (declarators.any fun d => Expr.optionSuspends d.init) = false)
    (hp : TargetsStill (declarators.flatMap Declarator.occurrences)) : Meets .still declarators := by
  intro d hd
  refine ⟨hp d.target ?_, Expr.optionMeets_still (by simpa using List.any_eq_false.1 h d hd)⟩
  exact List.mem_flatMap.2 ⟨d, hd, List.mem_append_left _ (.head _)⟩

mutual

theorem Stmt.meets_still (stmt : Stmt) (h : stmt.suspends = false)
    (hp : TargetsStill stmt.occurrences) : stmt.Meets .still := by
  rw [Stmt.suspends.eq_def] at h
  rw [Stmt.occurrences.eq_def] at hp
  cases stmt with
  | expr value | raise value => exact value.meets_still h
  | declare kind declarators => exact Declarator.meets_still h hp
  | functionDecl => exact ⟨trivial, trivial⟩
  | breakTo | continueTo | empty => exact trivial
  | block scope body => exact ⟨ScopeId.meets_still, Stmt.allMeet_still body h hp⟩
  | branch test consequent alternate =>
    simp only [Bool.or_eq_false_iff, targetsStill_append] at h hp
    refine ⟨test.meets_still h.1.1, consequent.meets_still h.1.2 hp.1.2, ?_⟩
    cases alternate with
    | none => exact trivial
    | some alternate => exact alternate.meets_still h.2 hp.2
  | whileLoop test body | doWhile body test =>
    simp only [Bool.or_eq_false_iff, targetsStill_append] at h hp
    exact ⟨test.meets_still h.1, body.meets_still h.2 hp.2⟩
  | forLoop scope init test update body =>
    simp only [Bool.or_eq_false_iff, targetsStill_append] at h hp
    refine ⟨ScopeId.meets_still, ?_, Expr.optionMeets_still h.1.1.2, Expr.optionMeets_still h.1.2,
      body.meets_still h.2 hp.2⟩
    cases init with
    | none => exact trivial
    | some init => exact init.meets_still h.1.1.1 hp.1.1.1
  | forIn scope target operand body | forOf scope target operand body =>
    simp only [Bool.or_eq_false_iff, targetsStill_append] at h hp
    exact ⟨ScopeId.meets_still, hp.1.1.meets, operand.meets_still h.1, body.meets_still h.2 hp.2⟩
  | switch scope discriminant cases =>
    simp only [Bool.or_eq_false_iff, targetsStill_append] at h hp
    exact ⟨ScopeId.meets_still, discriminant.meets_still h.1, SwitchCase.allMeet_still cases h.2 hp.2⟩
  | labeled name body => exact body.meets_still h hp
  | ret value => exact Expr.optionMeets_still h
  | tryCatch body handler finalizer =>
    simp only [Bool.or_eq_false_iff, targetsStill_append] at h hp
    refine ⟨Stmt.allMeet_still body h.1.1 hp.1.1, ?_, ?_⟩
    · rcases handler with _ | ⟨scope, param, handlerBody⟩
      · exact trivial
      have hparts := targetsStill_append.1 hp.1.2
      refine ⟨ScopeId.meets_still, ?_, Stmt.allMeet_still handlerBody h.1.2 hparts.2⟩
      intro bound hbound
      obtain ⟨param, rfl, rfl⟩ := Option.map_eq_some_iff.1 hbound
      exact hparts.1.meets
    · cases finalizer with
      | none => exact trivial
      | some finalBody => exact Stmt.allMeet_still finalBody h.2 hp.2

theorem Stmt.allMeet_still (stmts : List Stmt) (h : Stmt.anySuspends stmts = false)
    (hp : TargetsStill (Stmt.occurrencesList stmts)) : Stmt.AllMeet .still stmts := by
  cases stmts with
  | nil => exact trivial
  | cons stmt rest =>
    have h := Bool.or_eq_false_iff.1 h
    have hp := targetsStill_append.1 hp
    exact ⟨stmt.meets_still h.1 hp.1, Stmt.allMeet_still rest h.2 hp.2⟩

theorem SwitchCase.allMeet_still (cases : List SwitchCase) (h : SwitchCase.anySuspends cases = false)
    (hp : TargetsStill (SwitchCase.occurrencesList cases)) : SwitchCase.AllMeet .still cases := by
  cases cases with
  | nil => exact trivial
  | cons clause rest =>
    obtain ⟨test, body⟩ := clause
    obtain ⟨h, hrest⟩ := Bool.or_eq_false_iff.1 h
    obtain ⟨htest, hbody⟩ := Bool.or_eq_false_iff.1 h
    obtain ⟨hp, hprest⟩ := targetsStill_append.1 hp
    exact ⟨Expr.optionMeets_still htest, Stmt.allMeet_still body hbody (targetsStill_append.1 hp).2,
      SwitchCase.allMeet_still rest hrest hprest⟩

end

/-! ### Runs -/

/-- The instruction hands a value to the driver and waits. -/
def Instr.suspends : Instr → Bool
  | .suspend .. => true
  | _ => false

/-- The suspensions in the code, in order. -/
def Session.suspensions (s : Session) : List Instr :=
  s.code.toList.filter Instr.suspends

namespace Lower

variable {s : Session}

theorem suspensions_push {i : Instr} (hi : i.suspends = false) :
    ({ s with code := s.code.push i } : Session).suspensions = s.suspensions := by
  simp [Session.suspensions, hi]

/-- A run in a resumable function that adds no suspension. -/
def stillness : Discipline where
  fits ctx := ctx.isResumable = true
  leads _ s s' := s'.suspensions = s.suspensions
  refl _ _ := rfl
  trans h h' := h'.trans h
  pauses := false

theorem stillness_loose : stillness.Loose where
  within _ h := h
  withinBlock h := h
  aside _ h := congrArg (fun code : Array Instr => code.toList.filter Instr.suspends) h.code
  allocate := rfl
  fresh := trivial
  emit {_ _ i} hi := suspensions_push (by cases i <;> first | rfl | cases hi)
  suspend h := absurd h Bool.false_ne_true
  fuse hadded := by
    obtain ⟨before, hcode⟩ := justAdded?_eq_some hadded
    simp [stillness, Session.suspensions, fuseAddition, hcode, Instr.suspends]
  resumePoint := rfl
  entered h := absurd rfl h
  declined _ _ := trivial
  tree _ := nofun
  resumable h _ := h
  closed := nofun
  dangling _ _ := trivial
  anywhere h := h
  raise {_ _ i} hi := suspensions_push (by cases i <;> first | rfl | cases hi)
  region := rfl

instance stillness_lawful : stillness.simulation.Lawful :=
  Discipline.Lawful.simulation
    { toPlain := stillness_loose.plain
      openRoute := fun _ _ => ⟨rfl, by simp⟩ }

theorem stillness_resolves {γ : Type} [Resolvable γ] {part : γ} (h : Meets .still part) :
    stillness.simulation.Resolves part
  | .resolved _, htree => nomatch htree
  | .still, _ => h

/-- In a resumable function, where the analysis says that an expression does not suspend, its
lowering adds no suspension to the code. The same goes for a statement, unless it hands a value to a
target that suspends. -/
theorem lowerStmt_still {ctx : Context} (hres : ctx.isResumable = true) {s s' : Session} :
    (∀ e t, Expr.suspends e = false → lowerExpr e ctx s = .ok t s' → s'.suspensions = s.suspensions) ∧
    ∀ stmt name, Stmt.suspends stmt = false → TargetsStill stmt.occurrences →
      lowerStmt stmt name ctx s = .ok () s' → s'.suspensions = s.suspensions := by
  constructor
  · intro e t he h
    have hkeeps : stillness.Keeps [] (fun t => [t]) (lowerExpr e) :=
      .of_temp (lowerExpr_relates e (stillness_resolves (e.meets_still he)) _)
    exact (hkeeps.ok hres (by simp) h).1
  · intro stmt name hstmt hp h
    have hkeeps : stillness.Keeps [] (fun _ => []) (lowerStmt stmt name) :=
      .of_same (lowerStmt_relates stmt (stillness_resolves (stmt.meets_still hstmt hp)) name _)
    exact (hkeeps.ok hres (by simp) h).1

/-- `while (p) o;` in an async function. -/
theorem lowerStmt_still_loop : ∃ ctx s', lowerStmt (.whileLoop (.intrinsic "p") (.expr (.intrinsic "o")))
    none ctx {} = .ok () s' ∧ s'.suspensions = [] := by
  have h : lowerStmt (.whileLoop (.intrinsic "p") (.expr (.intrinsic "o"))) none
      ⟨{ name := "f", kind := .function, scope := ⟨0⟩, isAsync := true }, .ofModule "m", {}, 3, "m", [],
        false, [], []⟩ {} = .ok () _ := rfl
  refine ⟨_, _, h, (lowerStmt_still ?_).2 _ _ rfl ?_ h⟩
  · rfl
  · simp [TargetsStill, Stmt.occurrences, Expr.occurrences, Expr.inner]

end Lower

/-- `for ((await p).x in o);` -/
def awaitInLoopHead : Stmt :=
  .forIn none ⟨.target (.member (.await (.intrinsic "p")) "x" false), none⟩ (.intrinsic "o") .empty

/-- The analysis does not see an `await` in the head of a loop. -/
theorem Function.lower_suspendsUnseen : awaitInLoopHead.suspends = false ∧
    (Function.lower { name := "f", kind := .function, scope := ⟨0⟩, body := [awaitInLoopHead], isAsync := true }
      (.ofModule "m") {} {}).result.toOption.map (·.code.any Instr.suspends) = some true := by
  decide +kernel

end ScriptLowering
