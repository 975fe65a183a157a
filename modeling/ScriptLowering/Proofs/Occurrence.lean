import ScriptLowering.Source.Stmt

/-!
# Occurrences

The parts of a function body about which something may be asked no matter how deep they stand: its
expressions, the patterns that a value is bound to while a temp holds it, and its function
declarations. A statement about all parts of a body is a statement about one list,
`Function.occurrences`.
-/

namespace ScriptLowering

/-- A part of a function body. -/
inductive Occurrence where
  | expr (e : Expr)
  /-- A pattern to which a value is bound that is in a temp by then. -/
  | pattern (p : Pattern)
  | declared (ref : FunctionRef)

mutual

/-- The parts inside an expression, without the expression itself. -/
def Expr.inner : Expr → List Occurrence
  | .number _ | .string _ | .bool _ | .null | .undefined | .ident _ | .intrinsic _ | .classRef _
  | .this | .function _ => []
  | .array elements => Element.inner elements
  | .object members => Member.inner members
  | .template _ holes => Expr.innerList holes
  | .unary _ operand | .update _ _ operand | .member operand _ _ | .await operand =>
    .expr operand :: operand.inner
  | .binary _ left right | .logical _ left right | .index left right _
  | .compoundAssign _ left right =>
    .expr left :: left.inner ++ .expr right :: right.inner
  | .conditional test consequent alternate =>
    .expr test :: test.inner ++ .expr consequent :: consequent.inner
      ++ .expr alternate :: alternate.inner
  | .assign (.binding _) value => .expr value :: value.inner
  | .assign (.target target) value => .expr target :: target.inner ++ .expr value :: value.inner
  | .assign target value => .pattern target :: target.inner ++ .expr value :: value.inner
  | .call callee args _ | .newValue callee args =>
    .expr callee :: callee.inner ++ Argument.inner args
  | .superCall args | .newClass _ args | .newIntrinsic _ args => Argument.inner args
  | .sequence exprs => Expr.innerList exprs
  | .yield operand _ =>
    match operand with
    | none => []
    | some operand => .expr operand :: operand.inner

/-- The parts of expressions. -/
def Expr.innerList : List Expr → List Occurrence
  | [] => []
  | e :: rest => .expr e :: e.inner ++ Expr.innerList rest

/-- The parts of the elements of an array literal. -/
def Element.inner : List Element → List Occurrence
  | [] => []
  | .item value :: rest | .spread value :: rest => .expr value :: value.inner ++ Element.inner rest
  | .hole :: rest => Element.inner rest

/-- The parts of the members of an object literal. -/
def Member.inner : List Member → List Occurrence
  | [] => []
  | .named _ value :: rest | .spread value :: rest => .expr value :: value.inner ++ Member.inner rest
  | .computed key value :: rest =>
    .expr key :: key.inner ++ .expr value :: value.inner ++ Member.inner rest

/-- The parts of arguments. -/
def Argument.inner : List Argument → List Occurrence
  | [] => []
  | .plain value :: rest | .spread value :: rest =>
    .expr value :: value.inner ++ Argument.inner rest

/-- The parts of a pattern. -/
def Pattern.inner : Pattern → List Occurrence
  | .binding _ => []
  | .target expr => .expr expr :: expr.inner
  | .object properties rest =>
    Pattern.innerProperties properties ++ (match rest with
      | none => []
      | some rest => rest.inner)
  | .array elements rest =>
    Pattern.innerElements elements ++ (match rest with
      | none => []
      | some rest => rest.inner)
  | .withDefault target value => target.inner ++ .expr value :: value.inner

/-- The parts of the properties of an object pattern. -/
def Pattern.innerProperties : List (String × Pattern) → List Occurrence
  | [] => []
  | (_, target) :: rest => target.inner ++ Pattern.innerProperties rest

/-- The parts of the elements of an array pattern. -/
def Pattern.innerElements : List (Option Pattern) → List Occurrence
  | [] => []
  | none :: rest => Pattern.innerElements rest
  | some target :: rest => target.inner ++ Pattern.innerElements rest

end

/-- The parts of an expression. -/
def Expr.occurrences (e : Expr) : List Occurrence :=
  .expr e :: e.inner

/-- The parts of an expression that may be absent. -/
def Expr.optionOccurrences : Option Expr → List Occurrence
  | none => []
  | some e => e.occurrences

/-- The parts of a pattern that a value in a temp is bound to. -/
def Pattern.occurrences (p : Pattern) : List Occurrence :=
  .pattern p :: p.inner

/-- The parts of a declaration. -/
def Declarator.occurrences (d : Declarator) : List Occurrence :=
  d.target.occurrences ++ Expr.optionOccurrences d.init

mutual

/-- The parts of a statement. -/
def Stmt.occurrences : Stmt → List Occurrence
  | .expr value | .raise value => value.occurrences
  | .declare _ declarators => declarators.flatMap Declarator.occurrences
  | .functionDecl _ ref => [.declared ref]
  | .block _ body => Stmt.occurrencesList body
  | .branch test consequent alternate =>
    test.occurrences ++ consequent.occurrences ++ (match alternate with
      | none => []
      | some alternate => alternate.occurrences)
  | .whileLoop test body | .doWhile body test => test.occurrences ++ body.occurrences
  | .forLoop _ init test update body =>
    (match init with
      | none => []
      | some init => init.occurrences)
    ++ Expr.optionOccurrences test ++ Expr.optionOccurrences update ++ body.occurrences
  | .forIn _ target operand body | .forOf _ target operand body =>
    target.pattern.occurrences ++ operand.occurrences ++ body.occurrences
  | .switch _ discriminant cases => discriminant.occurrences ++ SwitchCase.occurrencesList cases
  | .labeled _ body => body.occurrences
  | .breakTo _ | .continueTo _ | .empty => []
  | .ret value => Expr.optionOccurrences value
  | .tryCatch body handler finalizer =>
    Stmt.occurrencesList body
    ++ (match handler with
      | none => []
      | some (.clause _ param handlerBody) =>
        (match param with
          | none => []
          | some param => param.occurrences) ++ Stmt.occurrencesList handlerBody)
    ++ (match finalizer with
      | none => []
      | some finalBody => Stmt.occurrencesList finalBody)

/-- The parts of statements. -/
def Stmt.occurrencesList : List Stmt → List Occurrence
  | [] => []
  | s :: rest => s.occurrences ++ Stmt.occurrencesList rest

/-- The parts of the clauses of a `switch`. -/
def SwitchCase.occurrencesList : List SwitchCase → List Occurrence
  | [] => []
  | .clause test body :: rest =>
    Expr.optionOccurrences test ++ Stmt.occurrencesList body ++ SwitchCase.occurrencesList rest

end

/-- The parts of a parameter. -/
def Param.occurrences (p : Param) : List Occurrence :=
  p.target.occurrences ++ Expr.optionOccurrences p.default

/-- The parts of a function. -/
def Function.occurrences (f : Function) : List Occurrence :=
  f.params.flatMap Param.occurrences ++ Stmt.occurrencesList f.body

/-! ### Values held across a suspension -/

/-- Some expression in front of all others suspends. -/
def Expr.firstSuspends (exprs : List Expr) : Bool :=
  exprs.head?.any Expr.suspends

/-- The value that is bound to the pattern is held while an assignment target suspends. -/
def Pattern.holdsTarget : Pattern → Bool
  | .target expr => expr.suspends
  | .withDefault inner _ => inner.holdsTarget
  | .binding _ | .object _ _ | .array _ _ => false

/-- While the part suspends, it holds no value in a temp that is needed afterwards. Operands that
stand behind a held one are declined, so what matters is what is held in front of the first one: the
values of holes in front of the first item of an array literal, the array or object that a leading
spread or computed member is added to, and the value that is bound to a pattern. -/
def Occurrence.durable : Occurrence → Bool
  | .expr (.array (.item _ :: _)) | .expr (.object (.named _ _ :: _)) => true
  | .expr (.array elements) => !Expr.firstSuspends (elements.flatMap Element.operands)
  | .expr (.object members) => !Expr.firstSuspends (members.flatMap Member.operands)
  | .pattern p => !p.holdsTarget
  | .expr _ | .declared _ => true

end ScriptLowering
