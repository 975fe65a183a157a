import ScriptLowering.Scope.Tree

/-!
# Captured identifiers and scope chains

A function that refers to an identifier of a function around it cannot find it among its own locals.
Such an identifier is *captured*: it lives in the capture object of its scope, and the functions
between the reference and the declaration pass that object inwards in their scope chain.

`ScopeTree.noteReference?` records one reference. From all that is recorded,
`ScopeTree.chainLayout?` tells which capture objects the scope chain of a function holds, and in
which order. A function that refers to nothing around it receives an empty chain; so a chain is cut
at the first function that passes nothing on.
-/

namespace ScriptLowering.ScopeTree

/-- Marks a function scope as referring to the functions around it; other scopes are left alone. -/
def markReader (tree : ScopeTree) (id : ScopeId) : ScopeTree :=
  tree.updateScope id fun s =>
    if s.kind = .function then { s with readsOuter := true } else s

/-- Marks a binding as captured. -/
def markCaptured (tree : ScopeTree) (id : BindingId) : ScopeTree :=
  tree.updateBinding id fun b => { b with captured := true }

/-- Records a reference to `binding` from code in the scope `source`. A reference inside the
declaring function changes nothing. Any other reference captures the binding and marks every
function from the reference up to the declaring function, which is not marked itself. -/
def noteReference? (tree : ScopeTree) (source : ScopeId) (binding : BindingId) :
    Option ScopeTree := do
  let declared ← tree.binding? binding
  let owner ← tree.enclosingFunction? declared.scope
  let reader ← tree.enclosingFunction? source
  if reader = owner then return tree
  let crossed := (← tree.path? reader).takeWhile (· ≠ owner)
  return crossed.foldl markReader (tree.markCaptured binding)

/-- The binding exists and is captured. -/
def isCaptured (tree : ScopeTree) (id : BindingId) : Bool :=
  (tree.binding? id).any (·.captured)

/-- The captured bindings that the scope itself declares, in order. -/
def capturedBindings? (tree : ScopeTree) (id : ScopeId) : Option (List BindingId) :=
  (tree.scope? id).map fun s => s.bindings.filter tree.isCaptured

/-- The scope has a capture object: a global scope always, any other scope when it declares a
captured binding. -/
def hasCaptureObject? (tree : ScopeTree) (id : ScopeId) : Option Bool :=
  (tree.scope? id).map fun s => s.kind == .global || s.bindings.any tree.isCaptured

/-- The scope is a function that refers to the functions around it. -/
def readsOuter (tree : ScopeTree) (id : ScopeId) : Bool :=
  (tree.scope? id).any (·.readsOuter)

/-- Of a path, innermost scope first, the scopes whose capture objects a function inside the
innermost one can be given, outermost first. A block lets everything around it through, a function
only what is in its own chain, and a global scope ends the path. -/
def reachable (tree : ScopeTree) : List ScopeId → List ScopeId
  | [] => []
  | s :: outer =>
    (if tree.isBlock s || (tree.isFunction s && tree.readsOuter s) then tree.reachable outer
      else [])
      ++ (if tree.hasCaptureObject? s = some true then [s] else [])

/-- The scopes whose capture objects the chain of a function holds, outermost first. -/
def chainLayout? (tree : ScopeTree) (function : ScopeId) : Option (List ScopeId) :=
  (tree.scope? function).map fun s => if s.readsOuter then tree.reachable s.ancestors else []

end ScriptLowering.ScopeTree
