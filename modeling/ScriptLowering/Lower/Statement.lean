import ScriptLowering.Lower.Iteration
import ScriptLowering.Lower.Protection
import ScriptLowering.Lower.Switch

/-!
# Statements

The recursion over statements. A statement list first carries out its function declarations. A label
in front of a loop belongs to the loop, so that a `continue` can name it; in front of any other
statement it only gives a `break` a place to go to.
-/

namespace ScriptLowering.Lower

/-- Lowers declarations. A `var` without an initial value leaves the variable as it is. -/
def declareAll (kind : DeclKind) : List Declarator → Lower Unit
  | [] => pure ()
  | d :: rest => do
    match d.init, d.target with
    | some init, target =>
      let value ← lowerExpr init
      bindPattern .init target value
    | none, .binding binding =>
      if kind ≠ .var then
        let value ← undefined
        initBinding binding value
    | none, _ => decline .destructuringWithoutInit
    declareAll kind rest

/-- How a loop head binds the value of an iteration. -/
def bindTarget (target : LoopTarget) (value : Temp) : Lower Unit :=
  bindPattern (if target.declaration.isSome then .init else .assign) target.pattern value

/-- `if`. -/
def ifStatement (test : Lower Temp) (consequent : Lower Unit) (alternate : Option (Lower Unit)) :
    Lower Unit := do
  let finish ← freshLabel
  let holds ← condition test
  match alternate with
  | none =>
    branchIf false holds finish
    consequent
  | some alternate =>
    let other ← freshLabel
    branchIf false holds other
    consequent
    branch finish
    place other
    alternate
  place finish

/-- A labeled statement that is not a loop. -/
def labeledStatement (name : String) (body : Lower Unit) : Lower Unit := do
  let finish ← freshLabel
  within (.labeled finish name) body
  place finish

/-- A function declaration that was not carried out in advance. -/
def functionStatement (binding : BindingId) (ref : FunctionRef) : Lower Unit := do
  if binding ∉ (← get).hoisted then declareFunction binding ref

/-- `for`-`of`. -/
def forOfStatement (name : Option String) (scope : Option ScopeId) (target : LoopTarget)
    (iterable : Lower Temp) (bodySuspends : Bool) (body : Lower Unit) : Lower Unit := do
  if (← read).isResumable && bodySuspends then
    suspendingForOfLoop name scope (bindTarget target) iterable body
  else forOfLoop name scope (bindTarget target) iterable body

/-- `try`. -/
def tryStatement (suspends : Bool) (block : Lower Unit) (handler : Option (Temp → Lower Unit))
    (finalizer : Option (Lower Unit)) : Lower Unit := do
  if (← read).isResumable && suspends then routedTry block handler finalizer
  else protectedTry block handler finalizer

mutual

/-- Lowers a statement. The name is the label in front of it, if it is a loop. -/
def lowerStmt : Stmt → Option String → Lower Unit
  | .expr value, _ => do
    let _ ← lowerExpr value
  | .declare kind declarators, _ => declareAll kind declarators
  | .functionDecl binding ref, _ => functionStatement binding ref
  | .block scope body, _ =>
    inScope scope do
      hoist body
      lowerStmts body
  | .branch test consequent alternate, _ =>
    ifStatement (lowerExpr test) (lowerStmt consequent none) (match alternate with
      | none => none
      | some alternate => some (lowerStmt alternate none))
  | .whileLoop test body, name => whileLoop name (lowerExpr test) (lowerStmt body none)
  | .doWhile body test, name => doWhileLoop name (lowerStmt body none) (lowerExpr test)
  | .forLoop scope init test update body, name =>
    forLoop name scope
      (match init with
        | none => pure ()
        | some init => lowerStmt init none)
      (test.map lowerExpr)
      (match update with
        | none => pure ()
        | some update => do
          let _ ← lowerExpr update)
      (lowerStmt body none)
  | .forIn scope target object body, name =>
    forInLoop name scope (bindTarget target) (lowerExpr object) (lowerStmt body none)
  | .forOf scope target iterable body, name =>
    forOfStatement name scope target (lowerExpr iterable) body.suspends (lowerStmt body none)
  | .switch scope discriminant cases, _ =>
    switchStatement scope (lowerExpr discriminant) cases fun labels => lowerClauses labels cases
  | .labeled name body, _ =>
    if body.isLoop then lowerStmt body (some name)
    else labeledStatement name (lowerStmt body none)
  | .breakTo name, _ => breakTo name
  | .continueTo name, _ => continueTo name
  | .ret none, _ => do
    returnValue (← undefined)
  | .ret (some value), _ => do
    returnValue (← lowerExpr value)
  | .raise value, _ => do
    throwValue (← lowerExpr value)
  | .tryCatch block handler finalizer, _ =>
    tryStatement (Stmt.suspends (.tryCatch block handler finalizer))
      (do
        hoist block
        lowerStmts block)
      (match handler with
        | none => none
        | some (.clause scope param body) => some (catchBody scope param do
          hoist body
          lowerStmts body))
      (match finalizer with
        | none => none
        | some body => some do
          hoist body
          lowerStmts body)
  | .empty, _ => pure ()

/-- Lowers statements in order. -/
def lowerStmts : List Stmt → Lower Unit
  | [] => pure ()
  | stmt :: rest => do
    lowerStmt stmt none
    lowerStmts rest

/-- Lowers the clauses of a `switch` behind their labels. -/
def lowerClauses : List Label → List SwitchCase → Lower Unit
  | label :: labels, .clause _ body :: rest => do
    place label
    lowerStmts body
    lowerClauses labels rest
  | _, _ => pure ()

end

end ScriptLowering.Lower
