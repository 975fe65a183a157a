import ScriptLowering.Proofs.Capture
import ScriptLowering.Proofs.Occurrence

/-!
# Resolved sources

A source refers to scopes and bindings of a tree by number. It is *resolved* in a tree that has all
of them. The tree in turn is *closed* if it has whatever its own scopes and bindings refer to; every
tree that grows from that of a module by the operations for scope trees is. Only the scope of a
function that a binding always holds may be missing, since it is recorded without being looked up;
so a source that is resolved asks for it. A source can also be asked not to suspend.
-/

namespace ScriptLowering

/-! ### Trees -/

namespace ScopeTree

/-- The tree has grown from that of a module. -/
inductive Built : ScopeTree → Prop
  | ofModule (name : String) : Built (.ofModule name)
  | addScope {tree tree' : ScopeTree} {parent id : ScopeId} {kind : ScopeKind} {name : String}
      (h : Built tree) (hadd : tree.addScope? parent kind name = some (tree', id)) : Built tree'
  | addBinding {tree tree' : ScopeTree} {scope : ScopeId} {name : String} {kind : BindingKind}
      {id : BindingId} (h : Built tree) (hadd : tree.addBinding? scope name kind = some (tree', id)) :
      Built tree'
  | addParameter {tree tree' : ScopeTree} {scope : ScopeId} {name : String} {index : Nat}
      {id : BindingId} (h : Built tree) (hadd : tree.addParameter? scope name index = some (tree', id)) :
      Built tree'
  | setStableType {tree tree' : ScopeTree} {id : BindingId} {ty : ValueType} (h : Built tree)
      (hset : tree.setStableType? id ty = some tree') : Built tree'
  | setCallable {tree tree' : ScopeTree} {id : BindingId} {callable : Callable} {scope : ScopeId}
      (h : Built tree) (hset : tree.setCallable? id callable scope = some tree') : Built tree'
  | noteReference {tree tree' : ScopeTree} {source : ScopeId} {id : BindingId} (h : Built tree)
      (hnote : tree.noteReference? source id = some tree') : Built tree'

/-- The tree has the scope. -/
def HasScope (tree : ScopeTree) (id : ScopeId) : Prop :=
  ∃ s, tree.scope? id = some s

/-- The tree has what its scopes and bindings refer to, and around every scope there is one that is
no block. -/
structure Closed (tree : ScopeTree) : Prop where
  declaring : ∀ {id b}, tree.binding? id = some b → tree.HasScope b.scope
  declared : ∀ {id s}, tree.scope? id = some s → ∀ b ∈ s.bindings, ∃ data, tree.binding? b = some data
  around : ∀ {id s}, tree.scope? id = some s → ∀ a ∈ s.ancestors, tree.HasScope a
  outermost : ∀ {id s}, tree.scope? id = some s → ∃ a ∈ id :: s.ancestors, tree.isBlock a = false

section Closed

variable {tree tree' : ScopeTree}
variable {id : ScopeId}

theorem WellFounded.closed {inner : ScopeKind → Prop} (htree : tree.WellFounded inner) : tree.Closed where
  declaring hb := (htree.listed hb).imp fun _ => And.left
  declared hs b hb := ((htree.owned hs).2 b hb).imp fun _ => And.left
  around hs a ha := htree.exists_scope (path?_eq_some_iff.2 ⟨_, hs, rfl⟩) (.tail _ ha)
  outermost hs := by
    refine htree.path_induction (motive := fun _ path => ∃ a ∈ path, tree.isBlock a = false)
      (fun _ hblock => ⟨_, .head _, hblock⟩) ?_ (path?_eq_some_iff.2 ⟨_, hs, rfl⟩)
    rintro id parent path - - - ⟨a, ha, hblock⟩
    exact ⟨a, .tail _ ha, hblock⟩

theorem Built.wellFounded (h : tree.Built) : tree.WellFounded fun _ => True := by
  induction h with
  | ofModule name => exact wellFounded_ofModule name
  | addScope _ hadd ih => exact addScope?_wellFounded hadd trivial ih
  | addBinding _ hadd ih | addParameter _ hadd ih => exact declare?_wellFounded hadd ih
  | setStableType _ hset ih | setCallable _ hset ih =>
    obtain ⟨b, -, heq⟩ := Option.bind_eq_some_iff.1 hset
    cases heq
    exact Marks.wellFounded (marks_updateBinding _ fun _ => ⟨rfl, fun hc => hc⟩) ih
  | noteReference _ hnote ih => exact (noteReference?_marks hnote).wellFounded ih

/-- Trees that have grown are closed. -/
theorem Built.closed (h : tree.Built) : tree.Closed :=
  h.wellFounded.closed

/-- Steps of growth are made of the operations for trees. -/
theorem Built.grow? {steps : List TreeStep} (h : tree.Built)
    (hgrow : tree.grow? steps = some tree') : tree'.Built := by
  induction steps generalizing tree with
  | nil => exact Option.some.inj hgrow ▸ h
  | cons step steps ih =>
    obtain ⟨next, hnext, hgrow⟩ := Option.bind_eq_some_iff.1 hgrow
    refine ih ?_ hgrow
    cases step with
    | addFunction | addBlock =>
      obtain ⟨⟨_, _⟩, hadd, rfl⟩ := Option.map_eq_some_iff.1 hnext
      exact h.addScope hadd
    | addBinding =>
      obtain ⟨⟨_, _⟩, hadd, rfl⟩ := Option.map_eq_some_iff.1 hnext
      exact h.addBinding hadd
    | addParameter =>
      obtain ⟨⟨_, _⟩, hadd, rfl⟩ := Option.map_eq_some_iff.1 hnext
      exact h.addParameter hadd
    | setStableType => exact h.setStableType hnext
    | setCallable => exact h.setCallable hnext
    | noteReference => exact h.noteReference hnext

/-- Around every scope there is a function or a global scope. -/
theorem Closed.enclosingFunction? (h : tree.Closed) (hid : tree.HasScope id) :
    ∃ owner, tree.enclosingFunction? id = some owner := by
  obtain ⟨s, hs⟩ := hid
  obtain ⟨a, ha, hblock⟩ := h.outermost hs
  have hfind : ((id :: s.ancestors).find? fun s => !tree.isBlock s).isSome := by
    rw [List.find?_isSome]
    exact ⟨a, ha, by simp [hblock]⟩
  obtain ⟨owner, howner⟩ := Option.isSome_iff_exists.1 hfind
  exact ⟨owner, by simp [ScopeTree.enclosingFunction?, path?, hs, howner]⟩

/-- The chain of a function holds scopes that exist. -/
theorem Closed.chainLayout? (h : tree.Closed) {function : ScopeId} (hfunction : tree.HasScope function) :
    ∃ layout, tree.chainLayout? function = some layout ∧ ∀ scope ∈ layout, tree.HasScope scope := by
  obtain ⟨s, hs⟩ := hfunction
  refine ⟨_, by rw [ScopeTree.chainLayout?, hs]; rfl, fun scope hscope => ?_⟩
  dsimp only at hscope
  split at hscope
  · exact h.around hs scope (List.mem_reverse.1 ((reachable_sublist tree _).subset hscope))
  · exact absurd hscope List.not_mem_nil

end Closed

end ScopeTree

/-! ### Sources -/

/-- The tree has the binding, and the scope of the function that the binding always holds. -/
def ScopeTree.HasBinding (tree : ScopeTree) (id : BindingId) : Prop :=
  ∃ b, tree.binding? id = some b ∧ ∀ scope, b.functionScope = some scope → tree.HasScope scope

/-- What can be asked of a source. -/
inductive Demand where
  /-- The tree has all scopes and bindings that the source refers to. -/
  | resolved (tree : ScopeTree)
  /-- Nothing in the source suspends. -/
  | still

/-- Parts of a source of which something can be asked. -/
class Resolvable (α : Type) where
  Meets : Demand → α → Prop

export Resolvable (Meets)

/-- The tree has all scopes and bindings that the part of a source refers to. -/
abbrev Resolved {α : Type} [Resolvable α] (tree : ScopeTree) (part : α) : Prop :=
  Meets (.resolved tree) part

instance : Resolvable ScopeId where
  Meets
    | .resolved tree, id => tree.HasScope id
    | .still, _ => True

instance : Resolvable BindingId where
  Meets
    | .resolved tree, id => tree.HasBinding id
    | .still, _ => True

instance : Resolvable FunctionRef := ⟨fun d ref => Meets d ref.scope⟩

instance {α : Type} [Resolvable α] : Resolvable (Option α) :=
  ⟨fun d part => ∀ a, part = some a → Meets d a⟩

instance : Resolvable Lower.Target where
  Meets d
    | .binding id => Meets d id
    | .property _ _ | .item _ _ => True

mutual

/-- The expression meets the demand. -/
def Expr.Meets (d : Demand) : Expr → Prop
  | .number _ | .string _ | .bool _ | .null | .undefined | .intrinsic _ | .classRef _ | .this => True
  | .ident binding => Resolvable.Meets d binding
  | .function ref => Resolvable.Meets d ref
  | .array elements => Element.AllMeet d elements
  | .object members => Member.AllMeet d members
  | .template _ holes => Expr.AllMeet d holes
  | .unary _ operand => operand.Meets d
  | .binary _ left right | .logical _ left right => left.Meets d ∧ right.Meets d
  | .conditional test consequent alternate =>
    test.Meets d ∧ consequent.Meets d ∧ alternate.Meets d
  | .assign target value => target.Meets d ∧ value.Meets d
  | .compoundAssign _ target value => target.Meets d ∧ value.Meets d
  | .update _ _ target => target.Meets d
  | .member base _ _ => base.Meets d
  | .index base key _ => base.Meets d ∧ key.Meets d
  | .call callee args _ | .newValue callee args => callee.Meets d ∧ Argument.AllMeet d args
  | .superCall args | .newClass _ args | .newIntrinsic _ args => Argument.AllMeet d args
  | .sequence exprs => Expr.AllMeet d exprs
  | .await operand => d ≠ .still ∧ operand.Meets d
  | .yield operand _ => d ≠ .still ∧ Expr.OptionMeets d operand

/-- The expression meets the demand, if there is one. -/
def Expr.OptionMeets (d : Demand) : Option Expr → Prop
  | none => True
  | some e => e.Meets d

/-- The expressions meet the demand. -/
def Expr.AllMeet (d : Demand) : List Expr → Prop
  | [] => True
  | e :: rest => e.Meets d ∧ Expr.AllMeet d rest

/-- The elements of an array literal meet the demand. -/
def Element.AllMeet (d : Demand) : List Element → Prop
  | [] => True
  | .item value :: rest | .spread value :: rest => value.Meets d ∧ Element.AllMeet d rest
  | .hole :: rest => Element.AllMeet d rest

/-- The members of an object literal meet the demand. -/
def Member.AllMeet (d : Demand) : List Member → Prop
  | [] => True
  | .named _ value :: rest | .spread value :: rest => value.Meets d ∧ Member.AllMeet d rest
  | .computed key value :: rest =>
    key.Meets d ∧ value.Meets d ∧ Member.AllMeet d rest

/-- The arguments meet the demand. -/
def Argument.AllMeet (d : Demand) : List Argument → Prop
  | [] => True
  | .plain value :: rest | .spread value :: rest => value.Meets d ∧ Argument.AllMeet d rest

/-- The pattern meets the demand. -/
def Pattern.Meets (d : Demand) : Pattern → Prop
  | .binding binding => Resolvable.Meets d binding
  | .target expr => expr.Meets d
  | .object properties rest =>
    Pattern.AllPropertiesMeet d properties ∧ Pattern.OptionMeets d rest
  | .array elements rest => Pattern.AllElementsMeet d elements ∧ Pattern.OptionMeets d rest
  | .withDefault inner value => inner.Meets d ∧ value.Meets d

/-- The pattern meets the demand, if there is one. -/
def Pattern.OptionMeets (d : Demand) : Option Pattern → Prop
  | none => True
  | some pattern => pattern.Meets d

/-- The properties of an object pattern meet the demand. -/
def Pattern.AllPropertiesMeet (d : Demand) : List (String × Pattern) → Prop
  | [] => True
  | (_, inner) :: rest => inner.Meets d ∧ Pattern.AllPropertiesMeet d rest

/-- The elements of an array pattern meet the demand. -/
def Pattern.AllElementsMeet (d : Demand) : List (Option Pattern) → Prop
  | [] => True
  | none :: rest => Pattern.AllElementsMeet d rest
  | some inner :: rest => inner.Meets d ∧ Pattern.AllElementsMeet d rest

end

instance : Resolvable Expr := ⟨Expr.Meets⟩

instance : Resolvable (List Expr) := ⟨Expr.AllMeet⟩

instance : Resolvable (List Element) := ⟨Element.AllMeet⟩

instance : Resolvable (List Member) := ⟨Member.AllMeet⟩

instance : Resolvable (List Argument) := ⟨Argument.AllMeet⟩

instance : Resolvable Pattern := ⟨Pattern.Meets⟩

instance : Resolvable (List (String × Pattern)) := ⟨Pattern.AllPropertiesMeet⟩

instance : Resolvable (List (Option Pattern)) := ⟨Pattern.AllElementsMeet⟩

/-- A pattern that a statement binds a value to. If something in it suspends, it is declined then
and there, unless it is the target of the whole value. -/
structure BoundPattern where
  pattern : Pattern

instance : Resolvable BoundPattern where
  Meets
    | .resolved tree, bound => Resolved tree bound.pattern
    | .still, bound => bound.pattern.holdsTarget = false

instance : Resolvable LoopTarget := ⟨fun d target => Meets d (BoundPattern.mk target.pattern)⟩

instance : Resolvable (List Declarator) :=
  ⟨fun d declarators => ∀ x ∈ declarators, Meets d (BoundPattern.mk x.target) ∧ Meets d x.init⟩

mutual

/-- The statement meets the demand. -/
def Stmt.Meets (d : Demand) : Stmt → Prop
  | .expr value | .raise value => Resolvable.Meets d value
  | .declare _ declarators => Resolvable.Meets d declarators
  | .functionDecl binding ref => Resolvable.Meets d binding ∧ Resolvable.Meets d ref
  | .breakTo _ | .continueTo _ | .empty => True
  | .block scope body => Resolvable.Meets d scope ∧ Stmt.AllMeet d body
  | .branch test consequent alternate =>
    Resolvable.Meets d test ∧ consequent.Meets d ∧ Stmt.OptionMeets d alternate
  | .whileLoop test body | .doWhile body test => Resolvable.Meets d test ∧ body.Meets d
  | .forLoop scope init test update body =>
    Resolvable.Meets d scope ∧ Stmt.OptionMeets d init
    ∧ Resolvable.Meets d test ∧ Resolvable.Meets d update ∧ body.Meets d
  | .forIn scope target operand body | .forOf scope target operand body =>
    Resolvable.Meets d scope ∧ Resolvable.Meets d target
    ∧ Resolvable.Meets d operand ∧ body.Meets d
  | .switch scope discriminant cases =>
    Resolvable.Meets d scope ∧ Resolvable.Meets d discriminant
    ∧ SwitchCase.AllMeet d cases
  | .labeled _ body => body.Meets d
  | .ret value => Resolvable.Meets d value
  | .tryCatch body handler finalizer =>
    Stmt.AllMeet d body ∧ CatchClause.OptionMeets d handler
    ∧ Stmt.BlockMeets d finalizer

/-- The statement meets the demand, if there is one. -/
def Stmt.OptionMeets (d : Demand) : Option Stmt → Prop
  | none => True
  | some stmt => stmt.Meets d

/-- The catch clause meets the demand, if there is one. -/
def CatchClause.OptionMeets (d : Demand) : Option CatchClause → Prop
  | none => True
  | some (.clause scope param body) => Resolvable.Meets d scope
    ∧ Resolvable.Meets d (param.map BoundPattern.mk)
    ∧ Stmt.AllMeet d body

/-- The finally block meets the demand, if there is one. -/
def Stmt.BlockMeets (d : Demand) : Option (List Stmt) → Prop
  | none => True
  | some body => Stmt.AllMeet d body

/-- The statements meet the demand. -/
def Stmt.AllMeet (d : Demand) : List Stmt → Prop
  | [] => True
  | s :: rest => s.Meets d ∧ Stmt.AllMeet d rest

/-- The clauses of a `switch` meet the demand. -/
def SwitchCase.AllMeet (d : Demand) : List SwitchCase → Prop
  | [] => True
  | .clause test body :: rest => Resolvable.Meets d test ∧ Stmt.AllMeet d body
    ∧ SwitchCase.AllMeet d rest

end

instance : Resolvable Stmt := ⟨Stmt.Meets⟩

instance : Resolvable (List Stmt) := ⟨Stmt.AllMeet⟩

instance : Resolvable (List SwitchCase) := ⟨SwitchCase.AllMeet⟩

theorem SwitchCase.AllMeet.of_mem {d : Demand} {cases : List SwitchCase}
    (h : SwitchCase.AllMeet d cases) {c : SwitchCase} (hc : c ∈ cases) :
    Meets d c.test? ∧ Meets d c.body := by
  induction cases with
  | nil => exact absurd hc List.not_mem_nil
  | cons clause rest ih =>
    obtain ⟨test, body⟩ := clause
    rcases List.mem_cons.1 hc with rfl | hc
    · exact ⟨h.1, h.2.1⟩
    · exact ih h.2.2 hc

instance : Resolvable (List Param) :=
  ⟨fun d params => ∀ p ∈ params, Meets d p.target ∧ Meets d p.default⟩

instance : Resolvable Function :=
  ⟨fun d f => Meets d f.scope ∧ Meets d f.params ∧ Meets d f.body⟩

/-! ### Suspension -/

mutual

theorem Expr.meets_still : (e : Expr) → e.suspends = false → e.Meets .still
  | .number _, _ | .string _, _ | .bool _, _ | .null, _ | .undefined, _ | .intrinsic _, _
  | .classRef _, _ | .this, _ | .ident _, _ | .function _, _ => trivial
  | .array elements, h => Element.allMeet_still elements h
  | .object members, h => Member.allMeet_still members h
  | .template _ exprs, h | .sequence exprs, h => Expr.allMeet_still exprs h
  | .unary _ operand, h | .update _ _ operand, h | .member operand _ _, h => operand.meets_still h
  | .binary _ left right, h | .logical _ left right, h | .compoundAssign _ left right, h
  | .index left right _, h =>
    have h := Bool.or_eq_false_iff.1 h
    ⟨left.meets_still h.1, right.meets_still h.2⟩
  | .conditional test consequent alternate, h =>
    have h := Bool.or_eq_false_iff.1 h
    have htest := Bool.or_eq_false_iff.1 h.1
    ⟨test.meets_still htest.1, consequent.meets_still htest.2, alternate.meets_still h.2⟩
  | .assign target value, h =>
    have h := Bool.or_eq_false_iff.1 h
    ⟨target.meets_still h.1, value.meets_still h.2⟩
  | .call callee args _, h | .newValue callee args, h =>
    have h := Bool.or_eq_false_iff.1 h
    ⟨callee.meets_still h.1, Argument.allMeet_still args h.2⟩
  | .superCall args, h | .newClass _ args, h | .newIntrinsic _ args, h => Argument.allMeet_still args h

theorem Expr.allMeet_still : (exprs : List Expr) → Expr.anySuspends exprs = false →
    Expr.AllMeet .still exprs
  | [], _ => trivial
  | e :: rest, h =>
    have h := Bool.or_eq_false_iff.1 h
    ⟨e.meets_still h.1, Expr.allMeet_still rest h.2⟩

theorem Element.allMeet_still : (elements : List Element) → Element.anySuspends elements = false →
    Element.AllMeet .still elements
  | [], _ => trivial
  | .item value :: rest, h | .spread value :: rest, h =>
    have h := Bool.or_eq_false_iff.1 h
    ⟨value.meets_still h.1, Element.allMeet_still rest h.2⟩
  | .hole :: rest, h => Element.allMeet_still rest h

theorem Member.allMeet_still : (members : List Member) → Member.anySuspends members = false →
    Member.AllMeet .still members
  | [], _ => trivial
  | .named _ value :: rest, h | .spread value :: rest, h =>
    have h := Bool.or_eq_false_iff.1 h
    ⟨value.meets_still h.1, Member.allMeet_still rest h.2⟩
  | .computed key value :: rest, h =>
    have h := Bool.or_eq_false_iff.1 h
    have hkey := Bool.or_eq_false_iff.1 h.1
    ⟨key.meets_still hkey.1, value.meets_still hkey.2, Member.allMeet_still rest h.2⟩

theorem Argument.allMeet_still : (args : List Argument) → Argument.anySuspends args = false →
    Argument.AllMeet .still args
  | [], _ => trivial
  | .plain value :: rest, h | .spread value :: rest, h =>
    have h := Bool.or_eq_false_iff.1 h
    ⟨value.meets_still h.1, Argument.allMeet_still rest h.2⟩

theorem Pattern.meets_still : (p : Pattern) → p.suspends = false → p.Meets .still
  | .binding _, _ => trivial
  | .target expr, h => expr.meets_still h
  | .object properties none, h => ⟨Pattern.properties_still properties (Bool.or_eq_false_iff.1 h).1, trivial⟩
  | .object properties (some rest), h =>
    have h := Bool.or_eq_false_iff.1 h
    ⟨Pattern.properties_still properties h.1, rest.meets_still h.2⟩
  | .array elements none, h => ⟨Pattern.elements_still elements (Bool.or_eq_false_iff.1 h).1, trivial⟩
  | .array elements (some rest), h =>
    have h := Bool.or_eq_false_iff.1 h
    ⟨Pattern.elements_still elements h.1, rest.meets_still h.2⟩
  | .withDefault inner value, h =>
    have h := Bool.or_eq_false_iff.1 h
    ⟨inner.meets_still h.1, value.meets_still h.2⟩

theorem Pattern.properties_still : (properties : List (String × Pattern)) →
    Pattern.anyPropertySuspends properties = false → Pattern.AllPropertiesMeet .still properties
  | [], _ => trivial
  | (_, inner) :: rest, h =>
    have h := Bool.or_eq_false_iff.1 h
    ⟨inner.meets_still h.1, Pattern.properties_still rest h.2⟩

theorem Pattern.elements_still : (elements : List (Option Pattern)) →
    Pattern.anyElementSuspends elements = false → Pattern.AllElementsMeet .still elements
  | [], _ => trivial
  | none :: rest, h => Pattern.elements_still rest h
  | some inner :: rest, h =>
    have h := Bool.or_eq_false_iff.1 h
    ⟨inner.meets_still h.1, Pattern.elements_still rest h.2⟩

end

end ScriptLowering
