import ScriptLowering.Source.Expr

/-!
# Statements and functions

The statements of a resolved JavaScript function body, and the function around them. A statement
that opens a scope names it; the tree of scopes lives apart.

`Stmt.suspends` is the analysis by which a resumable function chooses how to lower a `try` and a
`for`-`of`. It looks at the expressions and statements that run as part of the statement's own body;
the patterns of declarations, loop heads and catch clauses are left to the checks made where they
are bound.
-/

namespace ScriptLowering

/-- The three declaration keywords. -/
inductive DeclKind where
  | var
  | lexical
  | const
deriving DecidableEq, Inhabited

/-- One declared pattern and its initial value. -/
structure Declarator where
  /-- What is declared. -/
  target : Pattern
  /-- The initial value. -/
  init : Option Expr

/-- What a `for`-`in` or `for`-`of` binds in each iteration. -/
structure LoopTarget where
  /-- The pattern that receives the value. -/
  pattern : Pattern
  /-- The keyword of a head that declares. -/
  declaration : Option DeclKind

mutual

/-- A statement. -/
inductive Stmt where
  | expr (value : Expr)
  | declare (kind : DeclKind) (declarators : List Declarator)
  | functionDecl (binding : BindingId) (ref : FunctionRef)
  | block (scope : Option ScopeId) (body : List Stmt)
  | branch (test : Expr) (consequent : Stmt) (alternate : Option Stmt)
  | whileLoop (test : Expr) (body : Stmt)
  | doWhile (body : Stmt) (test : Expr)
  | forLoop (scope : Option ScopeId) (init : Option Stmt) (test update : Option Expr) (body : Stmt)
  | forIn (scope : Option ScopeId) (target : LoopTarget) (object : Expr) (body : Stmt)
  | forOf (scope : Option ScopeId) (target : LoopTarget) (iterable : Expr) (body : Stmt)
  | switch (scope : Option ScopeId) (discriminant : Expr) (cases : List SwitchCase)
  | labeled (name : String) (body : Stmt)
  | breakTo (name : Option String)
  | continueTo (name : Option String)
  | ret (value : Option Expr)
  | raise (value : Expr)
  | tryCatch (body : List Stmt) (handler : Option CatchClause) (finalizer : Option (List Stmt))
  | empty

/-- A clause of a `switch`; the default clause has no test. -/
inductive SwitchCase where
  | clause (test : Option Expr) (body : List Stmt)

/-- A `catch` clause: its scope, what it binds the exception to, and its body. -/
inductive CatchClause where
  | clause (scope : Option ScopeId) (param : Option Pattern) (body : List Stmt)

end

/-- The test of a clause. -/
def SwitchCase.test? : SwitchCase → Option Expr
  | .clause test _ => test

/-- The statements of a clause. -/
def SwitchCase.body : SwitchCase → List Stmt
  | .clause _ body => body

/-- The statement is one of the five loops; a label in front of a loop names the loop itself. -/
def Stmt.isLoop : Stmt → Bool
  | .whileLoop .. | .doWhile .. | .forLoop .. | .forIn .. | .forOf .. => true
  | _ => false

/-! ### Suspension -/

/-- An expression is present and suspends. -/
def Expr.optionSuspends : Option Expr → Bool
  | none => false
  | some e => e.suspends

mutual

/-- Executing the statement may suspend the function around it. -/
def Stmt.suspends : Stmt → Bool
  | .expr value | .raise value => value.suspends
  | .declare _ declarators => declarators.any fun d => Expr.optionSuspends d.init
  | .functionDecl _ _ | .breakTo _ | .continueTo _ | .empty => false
  | .block _ body => Stmt.anySuspends body
  | .branch test consequent alternate =>
    test.suspends || consequent.suspends || (match alternate with
      | none => false
      | some alternate => alternate.suspends)
  | .whileLoop test body | .doWhile body test => test.suspends || body.suspends
  | .forLoop _ init test update body =>
    (match init with
      | none => false
      | some init => init.suspends)
    || Expr.optionSuspends test || Expr.optionSuspends update || body.suspends
  | .forIn _ _ operand body | .forOf _ _ operand body => operand.suspends || body.suspends
  | .switch _ discriminant cases => discriminant.suspends || SwitchCase.anySuspends cases
  | .labeled _ body => body.suspends
  | .ret value => Expr.optionSuspends value
  | .tryCatch body handler finalizer =>
    Stmt.anySuspends body
    || (match handler with
      | none => false
      | some (.clause _ _ handlerBody) => Stmt.anySuspends handlerBody)
    || (match finalizer with
      | none => false
      | some finalBody => Stmt.anySuspends finalBody)

/-- Some statement of the list suspends. -/
def Stmt.anySuspends : List Stmt → Bool
  | [] => false
  | s :: rest => s.suspends || Stmt.anySuspends rest

/-- Some clause of a `switch` suspends, in its test or its body. -/
def SwitchCase.anySuspends : List SwitchCase → Bool
  | [] => false
  | .clause test body :: rest =>
    Expr.optionSuspends test || Stmt.anySuspends body || SwitchCase.anySuspends rest

end

/-! ### Functions -/

/-- What kind of function a body belongs to. -/
inductive FunctionKind where
  /-- The top level of a module. -/
  | main
  | function
  | arrow
  | constructor
  | method
  | staticMethod
deriving DecidableEq, Inhabited

/-- The class that a method or constructor belongs to. -/
structure OwnerClass where
  /-- Name of the class. -/
  name : String
  /-- The class it extends. -/
  parent : Option String
deriving DecidableEq, Inhabited

/-- A parameter and the value it takes in place of `undefined`. -/
structure Param where
  /-- What the argument is bound to. -/
  target : Pattern
  /-- The default. -/
  default : Option Expr

/-- A resolved function. -/
structure Function where
  /-- Name shown in listings. -/
  name : String
  /-- What kind of function it is. -/
  kind : FunctionKind
  /-- The function's own scope. -/
  scope : ScopeId
  /-- The parameters, in order. -/
  params : List Param := []
  /-- The statements of the body. -/
  body : List Stmt := []
  /-- An `async` function. -/
  isAsync : Bool := false
  /-- A generator. -/
  isGenerator : Bool := false
  /-- The class of a method or constructor. -/
  owner : Option OwnerClass := none

/-- The function runs in pieces: it can be suspended and resumed. -/
def Function.isResumable (f : Function) : Bool :=
  f.isAsync || f.isGenerator

/-- The constructor of a class that extends another one. -/
def Function.isDerivedConstructor (f : Function) : Bool :=
  f.kind == .constructor && f.owner.any fun c => c.parent.isSome

end ScriptLowering
