import ScriptLowering.Lower.Exit

/-!
# Bindings and scope chains

Every binding has one home, chosen when it is first used. A binding of a function around this one is
a field of an element of the received scope chain. A captured binding is a field of the capture
object of its scope. A resumable function keeps all its other bindings on its own capture object as
well, because slots do not survive a suspension; any other function keeps them in arguments and
slots.

A block with captured bindings has a capture object that lives in a carrier while the block is open.
The scope chain handed to a callee is put together from the objects that are at hand: the function's
own, those of open blocks, and those received.
-/

namespace ScriptLowering.Lower

/-! ### Where bindings live -/

/-- The field of a capture object that holds a captured binding. -/
def capturedField (b : Binding) : Lower FieldRef := do
  return ⟨(← requireScope b.scope).name, b.name⟩

/-- Chooses the home of a binding. In a resumable function a binding of a block has its number in
the name of its field, since blocks may declare the same name. -/
def choosePlacement (id : BindingId) : Lower Placement := do
  let b ← requireBinding id
  let ctx ← read
  let owner ← require (ctx.tree.enclosingFunction? b.scope)
  if owner ≠ ctx.function.scope then
    match ctx.chain.idxOf? b.scope with
    | none => decline (.unreachableBinding b.name)
    | some position => return .parentField (position + ctx.chainShift) (← capturedField b)
  let inBlock := b.scope ≠ ctx.function.scope
  if b.captured then
    let field ← capturedField b
    return if inBlock then .blockField b.scope field else .leafField field
  if ctx.isResumable then
    let name := if inBlock then b.name ++ "$" ++ toString id.index else b.name
    return .leafField ⟨ctx.leafName, name⟩
  match b.kind, b.paramIndex with
  | .parameter, some index => return .argument index
  | _, _ =>
    let storage := (b.stableType.map Storage.ofType).getD .object
    return .slot (← freshSlot { name := b.name, storage, binding := some id })

/-- The home of a binding. -/
def placement (id : BindingId) : Lower Placement := do
  match (← get).placements.lookup id with
  | some chosen => return chosen
  | none =>
    let chosen ← choosePlacement id
    modify fun s => { s with placements := (id, chosen) :: s.placements }
    return chosen

/-- The capture object of a block that is open. -/
def blockObject (scope : ScopeId) : Lower Temp := do
  match (← read).blocks.lookup scope with
  | some carrier => loadCarrier carrier
  | none => decline .inactiveBlock

/-- Loads a binding. -/
def loadBinding (id : BindingId) : Lower Temp := do
  match ← placement id with
  | .argument index => define .object (.loadArgument index)
  | .slot slot => loadSlot slot
  | .leafField field => define .object (.loadLeafField field)
  | .blockField scope field =>
    let object ← blockObject scope
    define .object (.loadScopeField object field)
  | .parentField index field => define .object (.loadParentField index field)

/-- Stores into the home of a binding. -/
def storePlacement (home : Placement) (value : Temp) : Lower Unit := do
  match home with
  | .argument index =>
    let value ← asObject value
    perform (.storeArgument index value)
  | .slot slot => storeSlot slot value
  | .leafField field =>
    let value ← asObject value
    perform (.storeLeafField field value)
  | .blockField scope field =>
    let value ← asObject value
    let object ← blockObject scope
    perform (.storeScopeField object field value)
  | .parentField index field =>
    let value ← asObject value
    perform (.storeParentField index field value)

/-- Initializes a binding. -/
def initBinding (id : BindingId) (value : Temp) : Lower Unit := do
  let _ ← requireBinding id
  storePlacement (← placement id) value

/-- Assigns to a binding. Assigning to a constant throws instead. -/
def assignBinding (id : BindingId) (value : Temp) : Lower Unit := do
  if (← requireBinding id).kind = .const then
    throwBuiltInError .typeError "Assignment to constant variable."
  else storePlacement (← placement id) value

/-! ### Capture objects of blocks -/

/-- Creates a capture object of a block and puts it into the carrier. -/
def createBlockObject (scope : Scope) (carrier : Carrier) : Lower Temp := do
  let object ← define (.reference (.scope scope.name)) (.newScope scope.name)
  storeCarrier carrier object
  return object

/-- Lowers the code of a scope. A block with captured bindings gets a capture object first. -/
def inScope {α : Type} (scope : Option ScopeId) (code : Lower α) : Lower α := do
  match scope with
  | none => code
  | some id =>
    let data ← requireScope id
    if data.kind = .block && data.bindings.any (← read).tree.isCaptured then
      let carrier ← durableCarrier "scope" (.reference (.scope data.name))
      let _ ← createBlockObject data carrier
      withinBlock id carrier code
    else code

/-- Copies one captured binding from one capture object of its block to another. -/
def copyCaptured (scope : Scope) (previous fresh : Temp) (id : BindingId) : Lower Unit := do
  let field : FieldRef := ⟨scope.name, (← requireBinding id).name⟩
  let value ← define .object (.loadScopeField previous field)
  perform (.storeScopeField fresh field value)

/-- Gives an open block a new capture object that holds the same values. -/
def renewBlock (scope : Option ScopeId) : Lower Unit := do
  match scope with
  | none => pure ()
  | some id =>
    match (← read).blocks.lookup id with
    | none => pure ()
    | some carrier =>
      let data ← requireScope id
      let previous ← loadCarrier carrier
      let fresh ← createBlockObject data carrier
      (data.bindings.filter (← read).tree.isCaptured).forM (copyCaptured data previous fresh)

/-! ### Scope chains -/

/-- Where the capture object of a scope is at hand. -/
def chainSource? (scope : ScopeId) : Lower (Option ScopeSource) := do
  let ctx ← read
  if scope = ctx.function.scope && ctx.ownsLeaf then return some .leaf
  match ctx.blocks.lookup scope with
  | some carrier => return some (.temp (← loadCarrier carrier))
  | none =>
    return (ctx.chain.idxOf? scope).map fun position => .received (position + ctx.chainShift)

/-- The capture object of a scope that a callee expects. -/
def chainSource (scope : ScopeId) : Lower ScopeSource := do
  match ← chainSource? scope with
  | some source => return source
  | none => decline (.unavailableScope (← requireScope scope).name)

/-- Emits a scope-chain array. -/
def buildScopes (sources : List ScopeSource) : Lower Temp :=
  define (.reference .scopes) (.buildScopes sources)

/-- The scope chain for a known function. A function that expects nothing is given the global
capture object if it is at hand. -/
def calleeScopes (callee : ScopeId) : Lower Temp := do
  match ← require ((← read).tree.chainLayout? callee) with
  | [] => buildScopes (← chainSource? ScopeTree.global).toList
  | layout => buildScopes (← layout.mapM chainSource)

/-- The scope chain for an unknown function: all capture objects at hand, outermost first. -/
def currentScopes : Lower Temp := do
  let ctx ← read
  let received := (List.range ctx.chain.length).map fun position =>
    ScopeSource.received (position + ctx.chainShift)
  let own := if ctx.ownsLeaf then [ScopeSource.leaf] else []
  let blocks ← ctx.blocks.reverse.mapM fun (_, carrier) => loadCarrier carrier
  buildScopes (received ++ own ++ blocks.map .temp)

/-! ### Nested functions -/

/-- A nested function, bound to its scope chain. -/
def closure (ref : FunctionRef) : Lower Temp := do
  let scopes ← calleeScopes ref.scope
  define (.reference .function) (.closure ref.callable scopes ref.isArrow)

/-- Carries out a function declaration. -/
def declareFunction (binding : BindingId) (ref : FunctionRef) : Lower Unit := do
  initBinding binding (← closure ref)

/-- Carries out the function declarations of a statement list, so that the functions can be called
before their declarations are reached. -/
def hoist : List Stmt → Lower Unit
  | [] => pure ()
  | .functionDecl binding ref :: rest => do
    declareFunction binding ref
    modify fun s => { s with hoisted := binding :: s.hoisted }
    hoist rest
  | _ :: rest => hoist rest

end ScriptLowering.Lower
