import ScriptLowering.Id
import ScriptLowering.Storage

/-!
# Scope trees

The lexical scopes of a module and the identifiers they declare. A tree starts with the module's
global scope and grows by adding a scope below an existing one or a binding to an existing scope, so
that a scope is always younger than the scopes around it. Each scope keeps the list of the scopes
around it; every question about ancestry is a question about that list.

An identifier of a scope or binding that the tree does not have is *dangling*. Operations that look
one up answer `none`; an identifier that is only passed along does no harm.

## Main definitions

* `ScopeTree`, `ScopeTree.global`, `ScopeTree.addScope?`, `ScopeTree.addBinding?`: trees and their
  growth;
* `ScopeTree.path?`: a scope followed by the scopes around it, innermost first;
* `ScopeTree.enclosingFunction?`, `ScopeTree.root?`, `ScopeTree.isWithin?`: questions about
  ancestry.
-/

namespace ScriptLowering

/-- What a scope belongs to. -/
inductive ScopeKind where
  /-- A module's top level. -/
  | global
  /-- The body of a function, arrow, method or constructor. -/
  | function
  /-- A block, loop head or catch clause. -/
  | block
deriving DecidableEq, Inhabited

/-- How an identifier was declared. -/
inductive BindingKind where
  | var
  | lexical
  | const
  | function
  | parameter
  | classDeclaration
  | catchParameter
deriving DecidableEq, Inhabited

/-- A declared identifier. -/
structure Binding where
  /-- The identifier. -/
  name : String
  /-- How it was declared. -/
  kind : BindingKind
  /-- The declaring scope. -/
  scope : ScopeId
  /-- A nested function refers to it. -/
  captured : Bool := false
  /-- A type that every value it ever holds has. -/
  stableType : Option ValueType := none
  /-- Position in the parameter list, for a plain parameter. -/
  paramIndex : Option Nat := none
  /-- The compiled function, for a function declaration that is never assigned to. -/
  callable : Option Callable := none
  /-- That function's own scope. -/
  functionScope : Option ScopeId := none
deriving DecidableEq, Inhabited

/-- A lexical scope. -/
structure Scope where
  /-- Qualified name: the names of the scopes around it and its own, outermost first. -/
  name : String
  /-- What it belongs to. -/
  kind : ScopeKind
  /-- The scopes around it, innermost first; empty for the module's global scope only. -/
  ancestors : List ScopeId := []
  /-- The identifiers it declares, in order. -/
  bindings : List BindingId := []
  /-- A function that refers to an identifier of a function around it. -/
  readsOuter : Bool := false
deriving DecidableEq, Inhabited

/-- The scope directly around this one. -/
def Scope.parent? (s : Scope) : Option ScopeId :=
  s.ancestors.head?

/-- The scopes and bindings of one module. -/
structure ScopeTree where
  /-- The scopes, by identifier. -/
  scopes : Array Scope
  /-- The bindings, by identifier. -/
  bindings : Array Binding := #[]
deriving DecidableEq, Inhabited

namespace ScopeTree

/-- The tree of a module that declares nothing. -/
def ofModule (name : String) : ScopeTree :=
  { scopes := #[{ name, kind := .global }] }

/-- The module's global scope. -/
def global : ScopeId := ⟨0⟩

/-- The data of a scope. -/
def scope? (tree : ScopeTree) (id : ScopeId) : Option Scope :=
  tree.scopes[id.index]?

/-- The data of a binding. -/
def binding? (tree : ScopeTree) (id : BindingId) : Option Binding :=
  tree.bindings[id.index]?

/-- Changes the data of a scope. -/
def updateScope (tree : ScopeTree) (id : ScopeId) (f : Scope → Scope) : ScopeTree :=
  { tree with scopes := tree.scopes.modify id.index f }

/-- Changes the data of a binding. -/
def updateBinding (tree : ScopeTree) (id : BindingId) (f : Binding → Binding) : ScopeTree :=
  { tree with bindings := tree.bindings.modify id.index f }

/-! ### Growth -/

/-- Adds a scope below `parent` and gives its identifier. -/
def addScope? (tree : ScopeTree) (parent : ScopeId) (kind : ScopeKind) (name : String) :
    Option (ScopeTree × ScopeId) := do
  let outer ← tree.scope? parent
  let added : Scope :=
    { name := outer.name ++ "/" ++ name, kind, ancestors := parent :: outer.ancestors }
  return ({ tree with scopes := tree.scopes.push added }, ⟨tree.scopes.size⟩)

/-- Declares `binding` in its scope and gives its identifier. -/
def declare? (tree : ScopeTree) (binding : Binding) : Option (ScopeTree × BindingId) := do
  let _ ← tree.scope? binding.scope
  let id : BindingId := ⟨tree.bindings.size⟩
  let tree := { tree with bindings := tree.bindings.push binding }
  return (tree.updateScope binding.scope fun s => { s with bindings := s.bindings ++ [id] }, id)

/-- Declares an identifier. -/
def addBinding? (tree : ScopeTree) (scope : ScopeId) (name : String) (kind : BindingKind) :
    Option (ScopeTree × BindingId) :=
  tree.declare? { name, kind, scope }

/-- Declares the plain parameter at position `index`. -/
def addParameter? (tree : ScopeTree) (scope : ScopeId) (name : String) (index : Nat) :
    Option (ScopeTree × BindingId) :=
  tree.declare? { name, kind := .parameter, scope, paramIndex := some index }

/-- Records a type that every value of the binding has. -/
def setStableType? (tree : ScopeTree) (id : BindingId) (ty : ValueType) : Option ScopeTree := do
  let _ ← tree.binding? id
  return tree.updateBinding id fun b => { b with stableType := some ty }

/-- Records the compiled function that the binding always holds. -/
def setCallable? (tree : ScopeTree) (id : BindingId) (callable : Callable) (scope : ScopeId) :
    Option ScopeTree := do
  let _ ← tree.binding? id
  return tree.updateBinding id fun b =>
    { b with callable := some callable, functionScope := some scope }

/-! ### Ancestry -/

/-- The scope and the scopes around it, innermost first. -/
def path? (tree : ScopeTree) (id : ScopeId) : Option (List ScopeId) :=
  (tree.scope? id).map fun s => id :: s.ancestors

/-- The scope is a block, loop head or catch clause. -/
def isBlock (tree : ScopeTree) (id : ScopeId) : Bool :=
  (tree.scope? id).any (·.kind == .block)

/-- The scope is the body of a function. -/
def isFunction (tree : ScopeTree) (id : ScopeId) : Bool :=
  (tree.scope? id).any (·.kind == .function)

/-- The innermost function or global scope that contains the scope, itself included. -/
def enclosingFunction? (tree : ScopeTree) (id : ScopeId) : Option ScopeId := do
  let path ← tree.path? id
  path.find? fun s => !tree.isBlock s

/-- The outermost scope around the scope. -/
def root? (tree : ScopeTree) (id : ScopeId) : Option ScopeId := do
  let path ← tree.path? id
  path.getLast?

/-- The scope is `ancestor` or lies inside it. Equal identifiers are not looked up. -/
def isWithin? (tree : ScopeTree) (id ancestor : ScopeId) : Option Bool :=
  if id = ancestor then some true
  else (tree.path? id).map (·.contains ancestor)

end ScopeTree

end ScriptLowering
