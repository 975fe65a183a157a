import ScriptLowering.Id
import ScriptLowering.Number.Binary64

/-!
# Expressions and patterns

The expressions of a resolved JavaScript function body. Identifiers are bindings of a scope tree,
globals of the runtime and references to user classes have forms of their own, and a nested function
is only a reference to the function compiled elsewhere.

`Expr.suspends` tells whether evaluating an expression may suspend the function around it: some
`await` or `yield` stands in it, nested functions apart.
-/

namespace ScriptLowering

/-- Binary operators. -/
inductive BinaryOp where
  | add
  | sub
  | mul
  | div
  | mod
  | exp
  | bitAnd
  | bitOr
  | bitXor
  | shl
  | shr
  | ushr
  | lt
  | le
  | gt
  | ge
  | looseEq
  | looseNe
  | strictEq
  | strictNe
  | instanceOf
  | memberIn
deriving DecidableEq, Inhabited

/-- Operators that evaluate their right operand only if the left one does not decide. -/
inductive LogicalOp where
  | and
  | or
  | nullish
deriving DecidableEq, Inhabited

/-- Unary operators. -/
inductive UnaryOp where
  | neg
  | plus
  | not
  | bitNot
  | typeOf
  | void
deriving DecidableEq, Inhabited

/-- The two update operators. -/
inductive UpdateOp where
  | increment
  | decrement
deriving DecidableEq, Inhabited

/-- A nested function, compiled separately. -/
structure FunctionRef where
  /-- The compiled function. -/
  callable : Callable
  /-- The function's own scope. -/
  scope : ScopeId
  /-- An arrow function. -/
  isArrow : Bool
deriving DecidableEq, Inhabited

mutual

/-- An expression. -/
inductive Expr where
  | number (value : Binary64)
  | string (value : String)
  | bool (value : Bool)
  | null
  | undefined
  | ident (binding : BindingId)
  /-- A well-known global of the runtime. -/
  | intrinsic (name : String)
  /-- A user class used as a value. -/
  | classRef (name : String)
  | this
  | array (elements : List Element)
  | object (members : List Member)
  /-- A template literal: its texts and the expressions between them. -/
  | template (texts : List String) (holes : List Expr)
  | unary (op : UnaryOp) (operand : Expr)
  | binary (op : BinaryOp) (left right : Expr)
  | logical (op : LogicalOp) (left right : Expr)
  | conditional (test consequent alternate : Expr)
  | assign (target : Pattern) (value : Expr)
  | compoundAssign (op : BinaryOp) (target value : Expr)
  /-- `++` or `--`, in front of its target or behind it. -/
  | update (op : UpdateOp) (inFront : Bool) (target : Expr)
  /-- `object.name`, or `object?.name`. -/
  | member (object : Expr) (name : String) (optional : Bool)
  /-- `object[index]`, or `object?.[index]`. -/
  | index (object index : Expr) (optional : Bool)
  /-- `callee(args)`, or `callee?.(args)`. -/
  | call (callee : Expr) (args : List Argument) (optional : Bool)
  | superCall (args : List Argument)
  /-- `new` of a user class. -/
  | newClass (className : String) (args : List Argument)
  /-- `new` of a well-known global. -/
  | newIntrinsic (name : String) (args : List Argument)
  /-- `new` of a computed constructor. -/
  | newValue (callee : Expr) (args : List Argument)
  | function (ref : FunctionRef)
  | sequence (exprs : List Expr)
  | await (operand : Expr)
  /-- `yield`, or `yield*` when it delegates. -/
  | yield (operand : Option Expr) (delegate : Bool)

/-- An element of an array literal. -/
inductive Element where
  | item (value : Expr)
  | spread (value : Expr)
  | hole

/-- A member of an object literal. -/
inductive Member where
  | named (name : String) (value : Expr)
  | computed (key value : Expr)
  | spread (value : Expr)

/-- An argument of a call. -/
inductive Argument where
  | plain (value : Expr)
  | spread (value : Expr)

/-- What an assignment or declaration binds. -/
inductive Pattern where
  | binding (binding : BindingId)
  /-- An assignment target that is not an identifier of its own. -/
  | target (expr : Expr)
  | object (properties : List (String × Pattern)) (rest : Option Pattern)
  /-- An array pattern; an absent element skips its position. -/
  | array (elements : List (Option Pattern)) (rest : Option Pattern)
  /-- A pattern with the value to bind in place of `undefined`. -/
  | withDefault (target : Pattern) (value : Expr)

end

/-- The expression of an argument. -/
def Argument.expr : Argument → Expr
  | .plain value | .spread value => value

/-- The argument is spread over several parameters. -/
def Argument.isSpread : Argument → Bool
  | .plain _ => false
  | .spread _ => true

/-- The expressions that an array literal evaluates, in order. -/
def Element.operands : Element → List Expr
  | .item value | .spread value => [value]
  | .hole => []

/-- The expressions that a member of an object literal evaluates, in order. -/
def Member.operands : Member → List Expr
  | .named _ value => [value]
  | .computed key value => [key, value]
  | .spread value => [value]

/-- The first property or position that a pattern reads, as an error message names it. -/
def Pattern.firstTarget? : Pattern → Option String
  | .binding _ | .target _ => none
  | .object properties _ => properties.head?.map (·.1)
  | .array elements _ => (elements.findIdx? Option.isSome).map toString
  | .withDefault inner _ => inner.firstTarget?

/-! ### Suspension -/

mutual

/-- Evaluating the expression may suspend the function around it. -/
def Expr.suspends : Expr → Bool
  | .number _ | .string _ | .bool _ | .null | .undefined | .ident _ | .intrinsic _ | .classRef _
  | .this | .function _ => false
  | .array elements => Element.anySuspends elements
  | .object members => Member.anySuspends members
  | .template _ holes => Expr.anySuspends holes
  | .unary _ operand => operand.suspends
  | .binary _ left right | .logical _ left right => left.suspends || right.suspends
  | .conditional test consequent alternate =>
    test.suspends || consequent.suspends || alternate.suspends
  | .assign target value => target.suspends || value.suspends
  | .compoundAssign _ target value => target.suspends || value.suspends
  | .update _ _ target => target.suspends
  | .member base _ _ => base.suspends
  | .index base key _ => base.suspends || key.suspends
  | .call callee args _ => callee.suspends || Argument.anySuspends args
  | .superCall args | .newClass _ args | .newIntrinsic _ args => Argument.anySuspends args
  | .newValue callee args => callee.suspends || Argument.anySuspends args
  | .sequence exprs => Expr.anySuspends exprs
  | .await _ | .yield _ _ => true

/-- Some expression of the list suspends. -/
def Expr.anySuspends : List Expr → Bool
  | [] => false
  | e :: rest => e.suspends || Expr.anySuspends rest

/-- Some element of an array literal suspends. -/
def Element.anySuspends : List Element → Bool
  | [] => false
  | .item value :: rest | .spread value :: rest => value.suspends || Element.anySuspends rest
  | .hole :: rest => Element.anySuspends rest

/-- Some member of an object literal suspends. -/
def Member.anySuspends : List Member → Bool
  | [] => false
  | .named _ value :: rest | .spread value :: rest => value.suspends || Member.anySuspends rest
  | .computed key value :: rest => key.suspends || value.suspends || Member.anySuspends rest

/-- Some argument suspends. -/
def Argument.anySuspends : List Argument → Bool
  | [] => false
  | .plain value :: rest | .spread value :: rest => value.suspends || Argument.anySuspends rest

/-- Binding a value to the pattern may suspend: in an assignment target or in a default. -/
def Pattern.suspends : Pattern → Bool
  | .binding _ => false
  | .target expr => expr.suspends
  | .object properties rest =>
    Pattern.anyPropertySuspends properties || (match rest with
      | none => false
      | some rest => rest.suspends)
  | .array elements rest =>
    Pattern.anyElementSuspends elements || (match rest with
      | none => false
      | some rest => rest.suspends)
  | .withDefault inner value => inner.suspends || value.suspends

/-- Some property of an object pattern suspends. -/
def Pattern.anyPropertySuspends : List (String × Pattern) → Bool
  | [] => false
  | (_, inner) :: rest => inner.suspends || Pattern.anyPropertySuspends rest

/-- Some element of an array pattern suspends. -/
def Pattern.anyElementSuspends : List (Option Pattern) → Bool
  | [] => false
  | none :: rest => Pattern.anyElementSuspends rest
  | some inner :: rest => inner.suspends || Pattern.anyElementSuspends rest

end

end ScriptLowering
