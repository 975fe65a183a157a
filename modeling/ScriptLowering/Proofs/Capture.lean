import Mathlib.Data.List.Infix
import ScriptLowering.Proofs.Emission

/-!
# Recorded references are reachable

References, scopes and bindings are recorded in any order. Whatever comes later, a scope keeps its
place in the tree, a captured binding stays captured and a function that refers to the functions
around it continues to do so; this is `ScopeTree.Grows`. So what one reference has marked is still
marked in the end, and the scope chain of the function that contains the reference leads to the
scope of the binding.

A chain only ever holds scopes around its function. Their capture objects are listed outermost
first: every scope of the list lies inside those in front of it.

## Main definitions

* `TreeStep`, `ScopeTree.grow?`: the ways in which a tree grows;
* `ScopeTree.WellFounded`: a scope is younger than those around it, and a binding is listed once,
  where it is declared;
* `ScopeTree.Serves`: a reference has left its marks.

## Main results

* `ScopeTree.step_grows`, `ScopeTree.grow?_grows`: what one step and a sequence of steps preserve;
* `ScopeTree.noteReference?_serves`, `ScopeTree.grow?_serves`: a reference leaves its marks for
  good;
* `ScopeTree.Serves.mem_chainLayout`: the marks make the scope reachable;
* `ScopeTree.grow_reaches`: in every tree that grew from that of a module, every recorded reference
  is served by the scope chain of its function.
-/

namespace ScriptLowering

variable {steps : List TreeStep}

/-- A change of a scope tree. Only functions and blocks are added to a module. -/
inductive TreeStep where
  | addFunction (parent : ScopeId) (name : String)
  | addBlock (parent : ScopeId) (name : String)
  | addBinding (scope : ScopeId) (name : String) (kind : BindingKind)
  | addParameter (scope : ScopeId) (name : String) (index : Nat)
  | setStableType (binding : BindingId) (ty : ValueType)
  | setCallable (binding : BindingId) (callable : Callable) (scope : ScopeId)
  | noteReference (source : ScopeId) (binding : BindingId)
deriving DecidableEq

/-- Carries out a change. -/
def TreeStep.apply? (tree : ScopeTree) : TreeStep → Option ScopeTree
  | .addFunction parent name => (tree.addScope? parent .function name).map Prod.fst
  | .addBlock parent name => (tree.addScope? parent .block name).map Prod.fst
  | .addBinding scope name kind => (tree.addBinding? scope name kind).map Prod.fst
  | .addParameter scope name index => (tree.addParameter? scope name index).map Prod.fst
  | .setStableType id ty => tree.setStableType? id ty
  | .setCallable id callable scope => tree.setCallable? id callable scope
  | .noteReference source id => tree.noteReference? source id

namespace ScopeTree

/-- Carries out changes in order. -/
def grow? (tree : ScopeTree) (steps : List TreeStep) : Option ScopeTree :=
  steps.foldlM TreeStep.apply? tree

/-! ### Growth -/

/-- Scopes stay where they are, and no mark is taken back. -/
structure Grows (tree tree' : ScopeTree) : Prop where
  scopes : ∀ {id s}, tree.scope? id = some s → ∃ s', tree'.scope? id = some s' ∧ s'.kind = s.kind ∧
    s'.ancestors = s.ancestors ∧ s.bindings ⊆ s'.bindings ∧
    (s.readsOuter = true → s'.readsOuter = true)
  bindings : ∀ {id b}, tree.binding? id = some b → ∃ b', tree'.binding? id = some b' ∧
    b'.scope = b.scope ∧ (b.captured = true → b'.captured = true)

/-- The scope is the module's global scope, or it is of a kind that may lie inside and younger than
the scope directly around it. -/
def Sits (tree : ScopeTree) (inner : ScopeKind → Prop) (id : ScopeId) (s : Scope) : Prop :=
  (id = global ∧ s.kind = .global ∧ s.ancestors = []) ∨
    (inner s.kind ∧ ∃ parent outer, tree.scope? parent = some outer ∧ parent.index < id.index ∧
      s.ancestors = parent :: outer.ancestors)

/-- A scope is younger than those around it, and a binding is listed once, by the scope that
declares it. -/
structure WellFounded (tree : ScopeTree) (inner : ScopeKind → Prop) : Prop where
  ancestry : ∀ {id s}, tree.scope? id = some s → tree.Sits inner id s
  listed : ∀ {id b}, tree.binding? id = some b → ∃ s, tree.scope? b.scope = some s ∧ id ∈ s.bindings
  owned : ∀ {scope s}, tree.scope? scope = some s → s.bindings.Nodup ∧
    ∀ id ∈ s.bindings, ∃ b, tree.binding? id = some b ∧ b.scope = scope

/-- The change leaves a scope where it is and takes back no mark. -/
def KeepsScope (f : Scope → Scope) : Prop :=
  ∀ s, (f s).kind = s.kind ∧ (f s).ancestors = s.ancestors ∧ (f s).bindings = s.bindings ∧
    (s.readsOuter = true → (f s).readsOuter = true)

/-- The change leaves a binding where it is and takes back no mark. -/
def KeepsBinding (f : Binding → Binding) : Prop :=
  ∀ b, (f b).scope = b.scope ∧ (b.captured = true → (f b).captured = true)

/-- Only marks and notes differ. -/
structure Marks (tree tree' : ScopeTree) : Prop where
  scopes : ∀ id, ∃ f, tree'.scope? id = (tree.scope? id).map f ∧ KeepsScope f
  bindings : ∀ id, ∃ f, tree'.binding? id = (tree.binding? id).map f ∧ KeepsBinding f

section Growth

variable {tree tree' tree'' : ScopeTree} {inner : ScopeKind → Prop}
variable {binding : Binding} {new parent : ScopeId} {kind : ScopeKind} {name : String}

theorem scope?_updateScope (tree : ScopeTree) (id id' : ScopeId) (f : Scope → Scope) :
    (tree.updateScope id f).scope? id'
      = if id = id' then (tree.scope? id').map f else tree.scope? id' := by
  obtain ⟨k⟩ := id
  obtain ⟨k'⟩ := id'
  simp only [updateScope, scope?, Array.getElem?_modify, ScopeId.mk.injEq]

theorem binding?_updateBinding (tree : ScopeTree) (id id' : BindingId) (f : Binding → Binding) :
    (tree.updateBinding id f).binding? id'
      = if id = id' then (tree.binding? id').map f else tree.binding? id' := by
  obtain ⟨k⟩ := id
  obtain ⟨k'⟩ := id'
  simp only [updateBinding, binding?, Array.getElem?_modify, BindingId.mk.injEq]

theorem Grows.refl (tree : ScopeTree) : tree.Grows tree :=
  ⟨fun hs => ⟨_, hs, rfl, rfl, List.Subset.refl _, id⟩, fun hb => ⟨_, hb, rfl, id⟩⟩

theorem Grows.trans (h : tree.Grows tree') (h' : tree'.Grows tree'') : tree.Grows tree'' where
  scopes hs := by
    obtain ⟨s', hs', hkind, hanc, hbind, hreads⟩ := h.scopes hs
    obtain ⟨s'', hs'', hkind', hanc', hbind', hreads'⟩ := h'.scopes hs'
    exact ⟨s'', hs'', hkind'.trans hkind, hanc'.trans hanc, List.Subset.trans hbind hbind',
      fun hr => hreads' (hreads hr)⟩
  bindings hb := by
    obtain ⟨b', hb', hscope, hcap⟩ := h.bindings hb
    obtain ⟨b'', hb'', hscope', hcap'⟩ := h'.bindings hb'
    exact ⟨b'', hb'', hscope'.trans hscope, fun hc => hcap' (hcap hc)⟩

theorem Marks.refl (tree : ScopeTree) : tree.Marks tree where
  scopes id := ⟨fun x => x, by simp, fun _ => ⟨rfl, rfl, rfl, fun h => h⟩⟩
  bindings id := ⟨fun x => x, by simp, fun _ => ⟨rfl, fun h => h⟩⟩

theorem Marks.trans (h : tree.Marks tree') (h' : tree'.Marks tree'') : tree.Marks tree'' where
  scopes id := by
    obtain ⟨f, hf, hkeeps⟩ := h.scopes id
    obtain ⟨g, hg, hkeeps'⟩ := h'.scopes id
    refine ⟨g ∘ f, by rw [hg, hf, Option.map_map], fun s => ?_⟩
    obtain ⟨hkind, hanc, hbind, hreads⟩ := hkeeps s
    obtain ⟨hkind', hanc', hbind', hreads'⟩ := hkeeps' (f s)
    exact ⟨hkind'.trans hkind, hanc'.trans hanc, hbind'.trans hbind, fun hr => hreads' (hreads hr)⟩
  bindings id := by
    obtain ⟨f, hf, hkeeps⟩ := h.bindings id
    obtain ⟨g, hg, hkeeps'⟩ := h'.bindings id
    refine ⟨g ∘ f, by rw [hg, hf, Option.map_map], fun b => ?_⟩
    exact ⟨(hkeeps' (f b)).1.trans (hkeeps b).1, fun hc => (hkeeps' (f b)).2 ((hkeeps b).2 hc)⟩

theorem marks_updateBinding (id : BindingId) {f : Binding → Binding} (hf : KeepsBinding f) :
    tree.Marks (tree.updateBinding id f) where
  scopes := (Marks.refl tree).scopes
  bindings id' := by
    rw [binding?_updateBinding]
    split
    · exact ⟨f, rfl, hf⟩
    · exact ((Marks.refl tree).bindings id')

theorem scope?_foldl_markReader (ids : List ScopeId) (tree : ScopeTree) (id : ScopeId) :
    (ids.foldl markReader tree).scope? id = (tree.scope? id).map fun s =>
      if s.kind = .function ∧ id ∈ ids then { s with readsOuter := true } else s := by
  induction ids generalizing tree with
  | nil => simp
  | cons x rest ih =>
    rw [List.foldl_cons, ih, markReader, scope?_updateScope]
    cases tree.scope? id with
    | none => simp
    | some s => grind

theorem bindings_foldl_markReader (ids : List ScopeId) (tree : ScopeTree) :
    (ids.foldl markReader tree).bindings = tree.bindings := by
  induction ids generalizing tree with
  | nil => rfl
  | cons x rest ih => exact ih _

theorem marks_foldl_markReader (ids : List ScopeId) (tree : ScopeTree) :
    tree.Marks (ids.foldl markReader tree) where
  scopes id := by
    refine ⟨_, scope?_foldl_markReader ids tree id, fun s => ?_⟩
    split
    · exact ⟨rfl, rfl, rfl, fun _ => rfl⟩
    · exact ⟨rfl, rfl, rfl, fun h => h⟩
  bindings id := by
    rw [binding?, bindings_foldl_markReader]
    exact (Marks.refl tree).bindings id

theorem Marks.grows (h : tree.Marks tree') : tree.Grows tree' where
  scopes {id s} hs := by
    obtain ⟨f, hf, hkeeps⟩ := h.scopes id
    obtain ⟨hkind, hanc, hbind, hreads⟩ := hkeeps s
    exact ⟨f s, by rw [hf, hs]; rfl, hkind, hanc, by rw [hbind]; exact List.Subset.refl _, hreads⟩
  bindings {id b} hb := by
    obtain ⟨f, hf, hkeeps⟩ := h.bindings id
    exact ⟨f b, by rw [hf, hb]; rfl, hkeeps b⟩

theorem Grows.sits (h : tree.Grows tree') (htree : tree.WellFounded inner) {id : ScopeId} {s s' : Scope}
    (hs : tree.scope? id = some s) (hs' : tree'.scope? id = some s') : tree'.Sits inner id s' := by
  obtain ⟨s'', hs'', hkind, hanc, -⟩ := h.scopes hs
  obtain rfl := Option.some.inj (hs''.symm.trans hs')
  rcases htree.ancestry hs with ⟨hid, hroot⟩ | ⟨hinner, p, o, ho, hp, hcons⟩
  · exact .inl ⟨hid, hkind ▸ hanc ▸ hroot⟩
  · obtain ⟨o', ho', -, hanc', -⟩ := h.scopes ho
    exact .inr ⟨hkind ▸ hinner, p, o', ho', hp, by rw [hanc, hcons, hanc']⟩

theorem Grows.listed (h : tree.Grows tree') (htree : tree.WellFounded inner) {id : BindingId} {b : Binding}
    (hb : tree.binding? id = some b) : ∃ s, tree'.scope? b.scope = some s ∧ id ∈ s.bindings := by
  obtain ⟨s, hs, hmem⟩ := htree.listed hb
  obtain ⟨s', hs', -, -, hbind, -⟩ := h.scopes hs
  exact ⟨s', hs', hbind hmem⟩

theorem Grows.owned (h : tree.Grows tree') (htree : tree.WellFounded inner) {scope : ScopeId}
    {s : Scope} (hs : tree.scope? scope = some s) (id : BindingId) (hid : id ∈ s.bindings) :
    ∃ b, tree'.binding? id = some b ∧ b.scope = scope := by
  obtain ⟨b, hb, rfl⟩ := (htree.owned hs).2 id hid
  obtain ⟨b', hb', hscope, -⟩ := h.bindings hb
  exact ⟨b', hb', hscope⟩

theorem Marks.wellFounded (h : tree.Marks tree') (htree : tree.WellFounded inner) :
    tree'.WellFounded inner where
  ancestry {id s'} hs' := by
    obtain ⟨f, hf, -⟩ := h.scopes id
    obtain ⟨s, hs, -⟩ := Option.map_eq_some_iff.1 (hf.symm.trans hs')
    exact h.grows.sits htree hs hs'
  listed {id b'} hb' := by
    obtain ⟨f, hf, hkeeps⟩ := h.bindings id
    obtain ⟨b, hb, rfl⟩ := Option.map_eq_some_iff.1 (hf.symm.trans hb')
    exact (hkeeps b).1 ▸ h.grows.listed htree hb
  owned {scope s'} hs' := by
    obtain ⟨f, hf, hkeeps⟩ := h.scopes scope
    obtain ⟨s, hs, rfl⟩ := Option.map_eq_some_iff.1 (hf.symm.trans hs')
    rw [(hkeeps s).2.2.1]
    exact ⟨(htree.owned hs).1, h.grows.owned htree hs⟩

/-! ### Steps -/

theorem addScope?_scope? (h : tree.addScope? parent kind name = some (tree', new)) (id : ScopeId) :
    ∃ outer, tree.scope? parent = some outer ∧
      tree'.scope? id = if id.index = tree.scopes.size
        then some { name := outer.name ++ "/" ++ name, kind, ancestors := parent :: outer.ancestors }
        else tree.scope? id := by
  obtain ⟨outer, houter, heq⟩ := Option.bind_eq_some_iff.1 h
  cases heq
  exact ⟨outer, houter, Array.getElem?_push⟩

theorem addScope?_grows
    (h : tree.addScope? parent kind name = some (tree', new)) : tree.Grows tree' where
  scopes {id s} hs := by
    obtain ⟨outer, -, hid⟩ := addScope?_scope? h id
    have hlt := (Array.getElem?_eq_some_iff.1 hs).1
    rw [if_neg (Nat.ne_of_lt hlt)] at hid
    exact ⟨s, hid.trans hs, rfl, rfl, List.Subset.refl _, fun h => h⟩
  bindings {id b} hb := by
    obtain ⟨outer, houter, heq⟩ := Option.bind_eq_some_iff.1 h
    cases heq
    exact ⟨b, hb, rfl, fun h => h⟩

theorem addScope?_wellFounded
    (h : tree.addScope? parent kind name = some (tree', new)) (hkind : inner kind)
    (htree : tree.WellFounded inner) : tree'.WellFounded inner where
  ancestry {id s} hs := by
    obtain ⟨outer, houter, hid⟩ := addScope?_scope? h id
    have hlt := (Array.getElem?_eq_some_iff.1 houter).1
    rw [hs] at hid
    split at hid
    · obtain ⟨outer', houter', -, hanc', -⟩ := (addScope?_grows h).scopes houter
      cases hid
      exact .inr ⟨hkind, parent, outer', houter', by omega, by rw [hanc']⟩
    · exact (addScope?_grows h).sits htree hid.symm hs
  listed {id b} hb := by
    refine (addScope?_grows h).listed htree (?_ : tree.binding? id = some b)
    obtain ⟨outer, houter, heq⟩ := Option.bind_eq_some_iff.1 h
    cases heq
    exact hb
  owned {scope s} hs := by
    obtain ⟨outer, -, hid⟩ := addScope?_scope? h scope
    rw [hs] at hid
    split at hid
    · cases hid
      exact ⟨.nil, by simp⟩
    · exact ⟨(htree.owned hid.symm).1, (addScope?_grows h).owned htree hid.symm⟩

/-- What declaring a binding does: the binding is new, and its scope lists it. -/
theorem declare?_eq {new : BindingId}
    (h : tree.declare? binding = some (tree', new)) :
    (∃ s, tree.scope? binding.scope = some s) ∧
      (∀ id, tree'.binding? id = if id = ⟨tree.bindings.size⟩ then some binding else tree.binding? id) ∧
      ∀ id, tree'.scope? id = if binding.scope = id
        then (tree.scope? id).map fun s => { s with bindings := s.bindings ++ [⟨tree.bindings.size⟩] }
        else tree.scope? id := by
  obtain ⟨s, hs, heq⟩ := Option.bind_eq_some_iff.1 h
  cases heq
  refine ⟨⟨s, hs⟩, fun id => ?_, fun id => scope?_updateScope _ _ _ _⟩
  obtain ⟨k⟩ := id
  simp only [BindingId.mk.injEq]
  exact Array.getElem?_push

theorem declare?_grows {new : BindingId}
    (h : tree.declare? binding = some (tree', new)) : tree.Grows tree' where
  scopes {id s} hs := by
    obtain ⟨-, -, hscopes⟩ := declare?_eq h
    rw [hscopes, hs]
    split
    · exact ⟨_, rfl, rfl, rfl, List.subset_append_left _ _, fun h => h⟩
    · exact ⟨s, rfl, rfl, rfl, List.Subset.refl _, fun h => h⟩
  bindings {id b} hb := by
    obtain ⟨-, hbindings, -⟩ := declare?_eq h
    have hold : id ≠ ⟨tree.bindings.size⟩ := fun heq =>
      Nat.ne_of_lt (Array.getElem?_eq_some_iff.1 hb).1 (congrArg BindingId.index heq)
    exact ⟨b, by rw [hbindings, if_neg hold, hb], rfl, fun h => h⟩

theorem declare?_wellFounded {new : BindingId}
    (h : tree.declare? binding = some (tree', new)) (htree : tree.WellFounded inner) :
    tree'.WellFounded inner where
  ancestry {id s'} hs' := by
    obtain ⟨-, -, hscopes⟩ := declare?_eq h
    have hold : ∃ s, tree.scope? id = some s := by
      rw [hscopes] at hs'
      split at hs'
      · exact (Option.map_eq_some_iff.1 hs').imp fun _ => And.left
      · exact ⟨s', hs'⟩
    obtain ⟨s, hs⟩ := hold
    exact (declare?_grows h).sits htree hs hs'
  listed {id b} hb := by
    obtain ⟨⟨s, hs⟩, hbindings, hscopes⟩ := declare?_eq h
    rw [hbindings] at hb
    split at hb
    · rename_i heq
      cases hb
      refine ⟨_, by rw [hscopes, if_pos rfl, hs]; rfl, ?_⟩
      simp [heq]
    · exact (declare?_grows h).listed htree hb
  owned {scope s'} hs' := by
    obtain ⟨-, hbindings, hscopes⟩ := declare?_eq h
    rw [hscopes] at hs'
    split at hs'
    · rename_i hscope
      obtain ⟨s, hs, rfl⟩ := Option.map_eq_some_iff.1 hs'
      obtain ⟨hnodup, hold⟩ := htree.owned hs
      refine ⟨List.nodup_append.2 ⟨hnodup, List.nodup_singleton _, fun id hid new hnew heq => ?_⟩,
        fun id hid => ?_⟩
      · obtain ⟨b, hb, -⟩ := hold id hid
        rw [heq, List.mem_singleton.1 hnew] at hb
        simp [binding?] at hb
      · rcases List.mem_append.1 hid with hid | hid
        · exact (declare?_grows h).owned htree hs id hid
        · exact ⟨binding, by rw [hbindings, if_pos (List.mem_singleton.1 hid)], hscope⟩
    · exact ⟨(htree.owned hs').1, (declare?_grows h).owned htree hs'⟩

/-- A reference changes marks only. -/
theorem noteReference?_marks {source : ScopeId} {id : BindingId}
    (h : tree.noteReference? source id = some tree') : tree.Marks tree' := by
  obtain ⟨b, hb, h⟩ := Option.bind_eq_some_iff.1 h
  obtain ⟨owner, howner, h⟩ := Option.bind_eq_some_iff.1 h
  obtain ⟨reader, hreader, h⟩ := Option.bind_eq_some_iff.1 h
  split at h
  · cases h
    exact .refl tree
  · obtain ⟨path, hpath, h⟩ := Option.bind_eq_some_iff.1 h
    cases h
    have hcaptured : tree.Marks (tree.markCaptured id) :=
      marks_updateBinding id fun b => ⟨rfl, fun _ => rfl⟩
    exact hcaptured.trans (marks_foldl_markReader _ _)

/-- What one step does to a well-founded tree. -/
theorem step_grows {step : TreeStep} (h : step.apply? tree = some tree')
    (htree : tree.WellFounded (· ≠ .global)) : tree.Grows tree' ∧ tree'.WellFounded (· ≠ .global) := by
  cases step with
  | addFunction parent name | addBlock parent name =>
    obtain ⟨⟨_, new⟩, hadd, rfl⟩ := Option.map_eq_some_iff.1 h
    exact ⟨addScope?_grows hadd, addScope?_wellFounded hadd (by simp) htree⟩
  | addBinding scope name _ | addParameter scope name _ =>
    obtain ⟨⟨_, new⟩, hadd, rfl⟩ := Option.map_eq_some_iff.1 h
    exact ⟨declare?_grows hadd, declare?_wellFounded hadd htree⟩
  | setStableType id _ | setCallable id _ _ =>
    obtain ⟨b, hb, h⟩ := Option.bind_eq_some_iff.1 h
    have hmarks : tree.Marks tree' := by
      cases h
      exact marks_updateBinding id fun b => ⟨rfl, fun hc => hc⟩
    exact ⟨hmarks.grows, hmarks.wellFounded htree⟩
  | noteReference source id =>
    have hmarks := noteReference?_marks h
    exact ⟨hmarks.grows, hmarks.wellFounded htree⟩

theorem wellFounded_ofModule (module : String) : (ofModule module).WellFounded inner := by
  have hroot : ∀ {id s}, (ofModule module).scope? id = some s →
      id = global ∧ s = { name := module, kind := .global } := by
    intro id s hs
    obtain ⟨hlt, rfl⟩ := Array.getElem?_eq_some_iff.1 hs
    obtain ⟨k⟩ := id
    obtain rfl : k = 0 := by simpa [ofModule] using hlt
    exact ⟨rfl, rfl⟩
  refine ⟨fun hs => .inl ?_, fun hb => ?_, fun hs => ?_⟩
  · obtain ⟨hid, rfl⟩ := hroot hs
    exact ⟨hid, rfl, rfl⟩
  · simp [ofModule, binding?] at hb
  · simp [(hroot hs).2]

/-- What a sequence of steps does to a well-founded tree. -/
theorem grow?_grows (h : tree.grow? steps = some tree') (htree : tree.WellFounded (· ≠ .global)) :
    tree.Grows tree' ∧ tree'.WellFounded (· ≠ .global) := by
  induction steps generalizing tree with
  | nil =>
    cases h
    exact ⟨.refl _, htree⟩
  | cons step rest ih =>
    obtain ⟨tree₁, hstep, hrest⟩ := Option.bind_eq_some_iff.1 h
    obtain ⟨hgrows, htree₁⟩ := step_grows hstep htree
    obtain ⟨hgrows', htree'⟩ := ih hrest htree₁
    exact ⟨hgrows.trans hgrows', htree'⟩

end Growth

/-! ### Paths -/

section Paths

variable {tree tree' : ScopeTree} {id a : ScopeId} {path : List ScopeId} {inner : ScopeKind → Prop}
variable {function : ScopeId}

theorem path?_eq_some_iff :
    tree.path? id = some path ↔ ∃ s, tree.scope? id = some s ∧ path = id :: s.ancestors := by
  rw [path?, Option.map_eq_some_iff]
  exact exists_congr fun s => and_congr_right fun _ => eq_comm

/-- Induction along a path, from the outermost scope inwards. -/
theorem WellFounded.path_induction {motive : ScopeId → List ScopeId → Prop}
    (htree : tree.WellFounded inner)
    (root : tree.path? global = some [global] → tree.isBlock global = false → motive global [global])
    (inside : ∀ id parent path, tree.path? id = some (id :: path) → tree.path? parent = some path →
      parent.index < id.index → motive parent path → motive id (id :: path))
    (hpath : tree.path? id = some path) : motive id path := by
  induction hn : id.index using Nat.strongRecOn generalizing id path with
  | _ n ih =>
    obtain ⟨s, hs, rfl⟩ := path?_eq_some_iff.1 hpath
    rcases htree.ancestry hs with ⟨rfl, hkind, hnone⟩ | ⟨-, parent, outer, houter, hlt, hcons⟩
    · rw [hnone] at hpath ⊢
      exact root hpath (by simp [isBlock, hs, hkind])
    · have hparent : tree.path? parent = some s.ancestors :=
        path?_eq_some_iff.2 ⟨outer, houter, hcons⟩
      exact inside id parent s.ancestors hpath hparent hlt (ih parent.index (hn ▸ hlt) hparent rfl)

section

variable (htree : tree.WellFounded inner) (hpath : tree.path? id = some path)

include htree hpath

/-- Every scope of a path is at least as old as the scope that the path starts with. -/
theorem WellFounded.index_le :
    ∀ a ∈ path, a.index ≤ id.index := by
  refine htree.path_induction (motive := fun id path => ∀ a ∈ path, a.index ≤ id.index) ?_ ?_ hpath
  · simp
  · intro id parent path _ _ hlt ih a ha
    rcases List.mem_cons.1 ha with rfl | ha
    · exact le_rfl
    · exact (ih a ha).trans hlt.le

/-- The path of a scope that another one lies in is the rest of the path of the other one, and the
scopes in front of it are younger. -/
theorem WellFounded.exists_front
    (ha : a ∈ path) : ∃ front rest, tree.path? a = some rest ∧ path = front ++ rest ∧
      ∀ x ∈ front, a.index < x.index := by
  refine htree.path_induction (motive := fun id path => a ∈ path → ∃ front rest,
    tree.path? a = some rest ∧ path = front ++ rest ∧ ∀ x ∈ front, a.index < x.index) ?_ ?_ hpath ha
  · intro hid _ ha
    obtain rfl := List.mem_singleton.1 ha
    exact ⟨[], _, hid, rfl, by simp⟩
  · intro id parent path hid hparent hlt ih ha
    rcases List.mem_cons.1 ha with rfl | hmem
    · exact ⟨[], _, hid, rfl, by simp⟩
    · obtain ⟨front, rest, hrest, rfl, hfront⟩ := ih hmem
      refine ⟨id :: front, rest, hrest, rfl, fun x hx => ?_⟩
      rcases List.mem_cons.1 hx with rfl | hx
      · exact (htree.index_le hparent a hmem).trans_lt hlt
      · exact hfront x hx

/-- Every scope of a path exists. -/
theorem WellFounded.exists_scope (ha : a ∈ path) : ∃ s, tree.scope? a = some s := by
  obtain ⟨front, rest, hrest, -⟩ := htree.exists_front hpath ha
  obtain ⟨s, hs, -⟩ := path?_eq_some_iff.1 hrest
  exact ⟨s, hs⟩

/-- On a path, every scope lies inside those behind it and is younger. -/
theorem WellFounded.pairwise_path :
    path.Pairwise fun inner outer =>
      tree.isWithin? inner outer = some true ∧ outer.index < inner.index := by
  refine htree.path_induction (motive := fun _ path => path.Pairwise fun inner outer =>
    tree.isWithin? inner outer = some true ∧ outer.index < inner.index) ?_ ?_ hpath
  · exact fun id _ => List.pairwise_singleton _ _
  · intro id parent path hid hparent hlt ih
    refine List.pairwise_cons.2 ⟨fun a ha => ?_, ih⟩
    have hyounger : a.index < id.index := (htree.index_le hparent a ha).trans_lt hlt
    refine ⟨?_, hyounger⟩
    rw [isWithin?, if_neg fun heq => Nat.ne_of_lt hyounger (congrArg ScopeId.index heq.symm), hid]
    simp [ha]

/-- Around a scope there are blocks up to its function, and the rest of its path is that of the
function. -/
theorem WellFounded.exists_blocks (hid : tree.enclosingFunction? id = some function) :
    ∃ blocks rest, tree.path? function = some rest ∧ path = blocks ++ rest ∧
      tree.isBlock function = false ∧
      ∀ x ∈ blocks, tree.isBlock x = true ∧ tree.enclosingFunction? x = some function := by
  refine htree.path_induction (motive := fun id path => tree.enclosingFunction? id = some function →
    ∃ blocks rest, tree.path? function = some rest ∧ path = blocks ++ rest ∧
      tree.isBlock function = false ∧
      ∀ x ∈ blocks, tree.isBlock x = true ∧ tree.enclosingFunction? x = some function) ?_ ?_ hpath hid
  · intro hx hblock hfunction
    obtain rfl : global = function := by simpa [enclosingFunction?, hx, hblock] using hfunction
    exact ⟨[], _, hx, rfl, hblock, by simp⟩
  · intro x parent path hx hparent hlt ih hfunction
    have hfind : (x :: path).find? (fun s => !tree.isBlock s) = some function := by
      rwa [enclosingFunction?, hx] at hfunction
    cases hblock : tree.isBlock x with
    | false =>
      obtain rfl : x = function := by simpa [hblock] using hfind
      exact ⟨[], _, hx, rfl, hblock, by simp⟩
    | true =>
      have hparentFunction : tree.enclosingFunction? parent = some function := by
        rw [enclosingFunction?, hparent]
        simpa [hblock] using hfind
      obtain ⟨blocks, rest, hrest, rfl, hnot, hblocks⟩ := ih hparentFunction
      refine ⟨x :: blocks, rest, hrest, rfl, hnot, fun y hy => ?_⟩
      rcases List.mem_cons.1 hy with rfl | hy
      · exact ⟨hblock, hfunction⟩
      · exact hblocks y hy

end

/-- Only functions and blocks have something around them. -/
theorem WellFounded.isBlock_or_isFunction (htree : tree.WellFounded (· ≠ .global))
    (hpath : tree.path? id = some path) (ha : a ∈ path) {s : ScopeId} (hs : s ∈ path) (hlt : a.index < s.index) :
    tree.isBlock s = true ∨ tree.isFunction s = true := by
  obtain ⟨front, rest, hrest, rfl, hfront⟩ := htree.exists_front hpath hs
  obtain ⟨data, hdata, rfl⟩ := path?_eq_some_iff.1 hrest
  have hnotGlobal : data.kind ≠ .global := by
    rcases htree.ancestry hdata with ⟨-, -, hnone⟩ | ⟨hkind, -⟩
    · rw [hnone, List.mem_append, List.mem_singleton] at ha
      rcases ha with ha | rfl
      · exact absurd (hfront a ha) (Nat.lt_asymm hlt)
      · exact absurd hlt (Nat.lt_irrefl _)
    · exact hkind
  simp only [isBlock, isFunction, hdata, Option.any_some]
  cases hkind : data.kind with
  | global => exact absurd hkind hnotGlobal
  | function => exact .inr rfl
  | block => exact .inl rfl

theorem enclosingFunction?_of_not_block (hpath : tree.path? id = some path)
    (hblock : tree.isBlock id = false) : tree.enclosingFunction? id = some id := by
  obtain ⟨s, hs, rfl⟩ := path?_eq_some_iff.1 hpath
  rw [enclosingFunction?, hpath]
  simp [hblock]

theorem Grows.path? (h : tree.Grows tree') (hpath : tree.path? id = some path) :
    tree'.path? id = some path := by
  obtain ⟨s, hs, rfl⟩ := path?_eq_some_iff.1 hpath
  obtain ⟨s', hs', -, hanc, -⟩ := h.scopes hs
  exact path?_eq_some_iff.2 ⟨s', hs', by rw [hanc]⟩

theorem Grows.isBlock (h : tree.Grows tree') {s : Scope} (hs : tree.scope? id = some s) :
    tree'.isBlock id = tree.isBlock id := by
  obtain ⟨s', hs', hkind, -⟩ := h.scopes hs
  simp [ScopeTree.isBlock, hs, hs', hkind]

theorem Grows.enclosingFunction? (h : tree.Grows tree') (htree : tree.WellFounded inner)
    (hid : tree.enclosingFunction? id = some function) :
    tree'.enclosingFunction? id = some function := by
  obtain ⟨path, hpath, hfind⟩ := Option.bind_eq_some_iff.1 hid
  obtain ⟨hfunction, front, rest, rfl, hfront⟩ := List.find?_eq_some_iff_append.1 hfind
  have hkept : ∀ x ∈ front ++ function :: rest, tree'.isBlock x = tree.isBlock x := fun x hx => by
    obtain ⟨s, hs⟩ := htree.exists_scope hpath hx
    exact h.isBlock hs
  rw [ScopeTree.enclosingFunction?, h.path? hpath]
  refine List.find?_eq_some_iff_append.2 ⟨?_, front, rest, rfl, fun x hx => ?_⟩
  · rwa [hkept function (by simp)]
  · rw [hkept x (by simp [hx])]
    exact hfront x hx

end Paths

/-! ### References -/

section References

variable {tree tree' : ScopeTree} {source : ScopeId} {id : BindingId} {inner : ScopeKind → Prop}
variable {s t : ScopeId}

/-- The reference has left its marks: if it leads to another function, the binding is captured, and
every function on the way refers to the functions around it. -/
def Serves (tree : ScopeTree) (source : ScopeId) (id : BindingId) : Prop :=
  ∃ b reader owner path, tree.binding? id = some b ∧ tree.enclosingFunction? source = some reader ∧
    tree.enclosingFunction? b.scope = some owner ∧ tree.path? reader = some path ∧
    (reader ≠ owner → b.captured = true ∧
      ∀ s ∈ path, owner.index < s.index → tree.isFunction s = true → tree.readsOuter s = true)

/-- Marks last. -/
theorem Grows.serves (h : tree.Grows tree') (htree : tree.WellFounded inner)
    (hserves : tree.Serves source id) :
    tree'.Serves source id := by
  obtain ⟨b, reader, owner, path, hb, hreader, howner, hpath, hmarks⟩ := hserves
  obtain ⟨b', hb', hscope, hcaptured⟩ := h.bindings hb
  refine ⟨b', reader, owner, path, hb', h.enclosingFunction? htree hreader,
    hscope ▸ h.enclosingFunction? htree howner, h.path? hpath, fun hne => ?_⟩
  refine ⟨hcaptured (hmarks hne).1, fun s hs hinside hfunction => ?_⟩
  obtain ⟨data, hdata⟩ := htree.exists_scope hpath hs
  obtain ⟨data', hdata', hkind, -, -, hreads⟩ := h.scopes hdata
  have hold := (hmarks hne).2 s hs hinside
  simp only [isFunction, readsOuter, hdata, hdata', hkind, Option.any_some] at hfunction hold ⊢
  exact hreads (hold hfunction)

/-- On a path, the scopes that are younger than a given one stand in front of it. -/
theorem mem_takeWhile_of_younger {path : List ScopeId} {owner : ScopeId}
    (hpath : path.Pairwise fun inner outer => outer.index < inner.index) (hs : s ∈ path)
    (hyounger : owner.index < s.index) : s ∈ path.takeWhile (· ≠ owner) := by
  induction path with
  | nil => simp at hs
  | cons x rest ih =>
    obtain ⟨hx, hrest⟩ := List.pairwise_cons.1 hpath
    have hne : x ≠ owner := by
      rintro rfl
      rcases List.mem_cons.1 hs with rfl | hs
      · exact Nat.lt_irrefl _ hyounger
      · exact Nat.lt_asymm hyounger (hx s hs)
    rw [List.takeWhile_cons_of_pos (by simpa using hne)]
    rcases List.mem_cons.1 hs with rfl | hs
    · exact .head _
    · exact .tail _ (ih hrest hs)

/-- A reference leaves its marks. -/
theorem noteReference?_serves (htree : tree.WellFounded inner)
    (h : tree.noteReference? source id = some tree') : tree'.Serves source id := by
  have hgrows := (noteReference?_marks h).grows
  obtain ⟨b, hb, h⟩ := Option.bind_eq_some_iff.1 h
  obtain ⟨owner, howner, h⟩ := Option.bind_eq_some_iff.1 h
  obtain ⟨reader, hreader, h⟩ := Option.bind_eq_some_iff.1 h
  obtain ⟨sourcePath, hsourcePath, -⟩ := Option.bind_eq_some_iff.1 hreader
  obtain ⟨-, path, hpath, -⟩ := htree.exists_blocks hsourcePath hreader
  obtain ⟨b', hb', hscope, -⟩ := hgrows.bindings hb
  refine ⟨b', reader, owner, path, hb', hgrows.enclosingFunction? htree hreader,
    hscope ▸ hgrows.enclosingFunction? htree howner, hgrows.path? hpath, fun hne => ?_⟩
  rw [if_neg hne] at h
  obtain ⟨path', hpath', h⟩ := Option.bind_eq_some_iff.1 h
  obtain rfl := Option.some.inj (hpath.symm.trans hpath')
  cases h
  have hmarks := marks_foldl_markReader (path.takeWhile (· ≠ owner)) (tree.markCaptured id)
  refine ⟨?_, fun s hs hinside hfunction => ?_⟩
  · have hmarked : (tree.markCaptured id).binding? id = some { b with captured := true } := by
      rw [markCaptured, binding?_updateBinding, if_pos rfl, hb]
      rfl
    obtain ⟨b'', hb'', -, hcaptured⟩ := hmarks.grows.bindings hmarked
    obtain rfl := Option.some.inj (hb''.symm.trans hb')
    exact hcaptured rfl
  · have hpairwise := (htree.pairwise_path hpath).imp And.right
    have hcrossed := mem_takeWhile_of_younger hpairwise hs hinside
    obtain ⟨data, hdata⟩ := htree.exists_scope hpath hs
    have hold : (tree.markCaptured id).scope? s = some data := hdata
    rw [isFunction, scope?_foldl_markReader, hold] at hfunction
    rw [readsOuter, scope?_foldl_markReader, hold]
    by_cases hkind : data.kind = .function
    · rw [Option.map_some, if_pos ⟨hkind, hcrossed⟩]
      rfl
    · simp [hkind] at hfunction

/-- Every reference among the steps has left its marks. -/
theorem grow?_serves (htree : tree.WellFounded (· ≠ .global))
    (h : tree.grow? steps = some tree') (hmem : .noteReference source id ∈ steps) :
    tree'.Serves source id := by
  induction steps generalizing tree with
  | nil => simp at hmem
  | cons step rest ih =>
    obtain ⟨tree₁, hstep, hrest⟩ := Option.bind_eq_some_iff.1 h
    obtain ⟨-, htree₁⟩ := step_grows hstep htree
    rcases List.mem_cons.1 hmem with rfl | hmem
    · exact (grow?_grows hrest htree₁).1.serves htree₁ (noteReference?_serves htree hstep)
    · exact ih htree₁ hrest hmem

end References

/-! ### Scope chains -/

section Chains

variable {tree : ScopeTree} {path : List ScopeId} {inner : ScopeKind → Prop}
variable {b : Binding} {id : BindingId} {ctx : Context} {data : Scope} {function : ScopeId}

/-- Capture objects come in the order of the scopes, outermost first. -/
theorem reachable_sublist (tree : ScopeTree) (path : List ScopeId) :
    (tree.reachable path).Sublist path.reverse := by
  induction path with
  | nil => exact .slnil
  | cons s outer ih =>
    rw [reachable, List.reverse_cons]
    refine List.Sublist.append ?_ ?_
    · split
      · exact ih
      · exact List.nil_sublist _
    · split
      · exact .refl _
      · exact List.nil_sublist _

theorem hasCaptureObject?_of_mem_reachable {s : ScopeId} (hs : s ∈ tree.reachable path) :
    tree.hasCaptureObject? s = some true := by
  induction path with
  | nil => simp [reachable] at hs
  | cons x outer ih =>
    rw [reachable, List.mem_append] at hs
    rcases hs with hs | hs
    · split at hs
      · exact ih hs
      · simp at hs
    · split at hs
      · obtain rfl := List.mem_singleton.1 hs
        assumption
      · simp at hs

/-- A scope with a capture object is reachable if what is inside of it lets it through. -/
theorem mem_reachable {scope : ScopeId}
    (hpath : path.Pairwise fun inner outer => outer.index < inner.index) (hscope : scope ∈ path)
    (hobject : tree.hasCaptureObject? scope = some true)
    (hopen : ∀ s ∈ path, scope.index < s.index →
      tree.isBlock s = true ∨ tree.isFunction s = true ∧ tree.readsOuter s = true) :
    scope ∈ tree.reachable path := by
  induction path with
  | nil => simp at hscope
  | cons x outer ih =>
    obtain ⟨hx, houter⟩ := List.pairwise_cons.1 hpath
    rw [reachable, List.mem_append]
    rcases List.mem_cons.1 hscope with rfl | hscope
    · exact .inr (by simp [hobject])
    · have hlets := hopen x (.head _) (hx scope hscope)
      refine .inl ?_
      rw [if_pos (by simpa using hlets)]
      exact ih houter hscope fun s hs => hopen s (.tail _ hs)

/-- The capture objects of the list belong to scopes around the function, outermost first. -/
structure ListsAround (tree : ScopeTree) (function : ScopeId) (layout : List ScopeId) : Prop where
  around : ∀ s ∈ layout, tree.isWithin? function s = some true ∧ s ≠ function
  objects : ∀ s ∈ layout, tree.hasCaptureObject? s = some true
  ordered : layout.Pairwise fun outer inner => tree.isWithin? inner outer = some true ∧ inner ≠ outer

theorem ListsAround.nodup {layout : List ScopeId}
    (h : tree.ListsAround function layout) : layout.Nodup :=
  h.ordered.imp fun hne => hne.2.symm

theorem WellFounded.listsAround (htree : tree.WellFounded inner)
    (hdata : tree.scope? function = some data) :
    ∃ layout, tree.chainLayout? function = some layout ∧ tree.ListsAround function layout := by
  have hpath : tree.path? function = some (function :: data.ancestors) :=
    path?_eq_some_iff.2 ⟨data, hdata, rfl⟩
  obtain ⟨haround, hordered⟩ := List.pairwise_cons.1 (htree.pairwise_path hpath)
  have hne : ∀ {inner outer : ScopeId}, outer.index < inner.index → inner ≠ outer :=
    fun hlt heq => Nat.ne_of_lt hlt (congrArg ScopeId.index heq.symm)
  refine ⟨if data.readsOuter then tree.reachable data.ancestors else [],
    by rw [chainLayout?, hdata]; rfl, ?_⟩
  split
  · have hsub := reachable_sublist tree data.ancestors
    refine ⟨fun s hs => ?_, fun s hs => hasCaptureObject?_of_mem_reachable hs, ?_⟩
    · have hmem := haround s (List.mem_reverse.1 (hsub.subset hs))
      exact ⟨hmem.1, (hne hmem.2).symm⟩
    · refine List.Pairwise.sublist hsub (List.pairwise_reverse.2 (hordered.imp ?_))
      exact fun h => ⟨h.1, hne h.2⟩
  · exact ⟨by simp, by simp, .nil⟩

/-- The reference leads from its place to a scope around it that belongs to another function. -/
def LeadsOut (tree : ScopeTree) (source : ScopeId) (b : Binding) : Prop :=
  tree.isWithin? source b.scope = some true ∧
    tree.enclosingFunction? b.scope ≠ tree.enclosingFunction? source

instance (tree : ScopeTree) (source : ScopeId) (b : Binding) : Decidable (tree.LeadsOut source b) :=
  inferInstanceAs (Decidable (_ ∧ _))

/-- The scope chain of a function leads to the bindings around it that the function refers to. -/
theorem Serves.mem_chainLayout (htree : tree.WellFounded (· ≠ .global)) {source reader : ScopeId}
    (hserves : tree.Serves source id)
    (hb : tree.binding? id = some b) (hreader : tree.enclosingFunction? source = some reader)
    (hdata : tree.scope? reader = some data) (hout : tree.LeadsOut source b) :
    ∃ layout, tree.chainLayout? reader = some layout ∧ b.scope ∈ layout := by
  obtain ⟨b', reader', owner, path, hb', hreader', howner, hpath, hmarks⟩ := hserves
  obtain rfl := Option.some.inj (hb.symm.trans hb')
  obtain rfl := Option.some.inj (hreader.symm.trans hreader')
  obtain ⟨hwithin, hother⟩ := hout
  have hne : reader ≠ owner := fun heq => hother (by rw [howner, hreader, heq])
  obtain ⟨hcaptured, hreads⟩ := hmarks hne
  obtain ⟨sourcePath, hsourcePath, -⟩ := Option.bind_eq_some_iff.1 hreader
  obtain ⟨blocks, rest, hrest, hsplit, hnotBlock, hblocks⟩ := htree.exists_blocks hsourcePath hreader
  obtain rfl := Option.some.inj (hpath.symm.trans hrest)
  obtain ⟨data', hdata', hcons⟩ := path?_eq_some_iff.1 hpath
  obtain rfl := Option.some.inj (hdata.symm.trans hdata')
  -- the declaring scope is on the path of the source, but not inside the reading function
  have hmem : b.scope ∈ sourcePath := by
    rw [isWithin?] at hwithin
    split at hwithin
    · rename_i heq
      obtain ⟨s, -, rfl⟩ := path?_eq_some_iff.1 hsourcePath
      exact heq ▸ .head _
    · simpa [hsourcePath] using hwithin
  have haround : b.scope ∈ data.ancestors := by
    rw [hsplit, hcons, List.mem_append, List.mem_cons] at hmem
    rcases hmem with hin | heq | haround
    · exact absurd ((hblocks _ hin).2.trans hreader.symm) hother
    · refine absurd ?_ hother
      rw [heq, enclosingFunction?_of_not_block hpath hnotBlock, hreader]
    · exact haround
  have hpairwise := (htree.pairwise_path hpath).imp And.right
  have hlisted : tree.hasCaptureObject? b.scope = some true := by
    obtain ⟨s, hs, hmem⟩ := htree.listed hb
    have hany : s.bindings.any tree.isCaptured = true :=
      List.any_eq_true.2 ⟨id, hmem, by simp [isCaptured, hb, hcaptured]⟩
    simp [hasCaptureObject?, hs, hany]
  have hownerLe : owner.index ≤ b.scope.index := by
    obtain ⟨scopePath, hscopePath, hfind⟩ := Option.bind_eq_some_iff.1 howner
    exact htree.index_le hscopePath owner (List.mem_of_find?_eq_some hfind)
  have hopen : ∀ s ∈ path, b.scope.index < s.index →
      tree.isBlock s = true ∨ tree.isFunction s = true ∧ tree.readsOuter s = true := by
    intro s hs hlt
    rcases htree.isBlock_or_isFunction hpath (hcons ▸ .tail _ haround) hs hlt with hblock | hfunction
    · exact .inl hblock
    · exact .inr ⟨hfunction, hreads s hs (hownerLe.trans_lt hlt) hfunction⟩
  rw [hcons] at hopen hpairwise
  obtain ⟨hinside, hancestors⟩ := List.pairwise_cons.1 hpairwise
  have hreadsSelf : data.readsOuter = true := by
    have hself := (hopen reader (.head _) (hinside b.scope haround)).resolve_left (by simp [hnotBlock])
    simpa [readsOuter, hdata] using hself.2
  refine ⟨tree.reachable data.ancestors, by rw [chainLayout?, hdata]; simp [hreadsSelf], ?_⟩
  exact mem_reachable hancestors haround hlisted fun s hs => hopen s (.tail _ hs)

theorem require_some {α : Type} {a : α} {found : Option α} {s : Session}
    (hfound : found = some a) : Lower.require found ctx s = .ok a s := by
  rw [hfound]
  rfl

/-- A scope of the received chain is found, and its bindings are fields of its capture object. -/
theorem choosePlacement_of_mem_chain {owner : ScopeId} (hb : ctx.tree.binding? id = some b) (hdata : ctx.tree.scope? b.scope = some data)
    (howner : ctx.tree.enclosingFunction? b.scope = some owner) (hother : owner ≠ ctx.function.scope)
    (hmem : b.scope ∈ ctx.chain) :
    ∃ position, ctx.chain[position]? = some b.scope ∧ ∀ s : Session,
      Lower.choosePlacement id ctx s
        = .ok (.parentField (position + ctx.chainShift) ⟨data.name, b.name⟩) s := by
  obtain ⟨position, hposition⟩ := Option.isSome_iff_exists.1 (List.isSome_idxOf?.2 hmem)
  refine ⟨position, ?_, fun s => ?_⟩
  · obtain ⟨hlt, heq, -⟩ := List.idxOf?_eq_some_iff.1 hposition
    exact List.getElem?_eq_some_iff.2 ⟨hlt, heq⟩
  · have hbinding : Lower.requireBinding id ctx s = .ok b s := require_some hb
    have hfield : Lower.capturedField b ctx s = .ok ⟨data.name, b.name⟩ s :=
      Lower.bind_run (require_some hdata)
    unfold Lower.choosePlacement
    rw [Lower.bind_run hbinding]
    refine (Lower.bind_run (m := read) rfl).trans ?_
    rw [Lower.bind_run (require_some howner)]
    simp only [ne_eq, hother, not_false_eq_true, if_true, hposition]
    exact Lower.bind_run hfield

end Chains

/-- Whatever order scopes, bindings and references are recorded in, a reference that leads to a
scope around it, in another function, is served: the chain of its function holds that scope once,
and the home of the binding is a field of it. The chain of a function holds capture objects of
scopes around the function only, outermost first. -/
theorem grow_reaches {module : String} {tree : ScopeTree}
    (h : (ofModule module).grow? steps = some tree) :
    (∀ source id, .noteReference source id ∈ steps →
      ∃ b reader, tree.binding? id = some b ∧ tree.enclosingFunction? source = some reader ∧
        (tree.LeadsOut source b → ∃ layout data, tree.chainLayout? reader = some layout ∧
          layout.count b.scope = 1 ∧ tree.scope? b.scope = some data ∧
          ∀ ctx : Context, ctx.tree = tree → ctx.function.scope = reader → ctx.chain = layout →
            ∃ position, layout[position]? = some b.scope ∧ ∀ s : Session,
              Lower.choosePlacement id ctx s
                = .ok (.parentField (position + ctx.chainShift) ⟨data.name, b.name⟩) s)) ∧
    ∀ function data, tree.scope? function = some data → data.kind = .function →
      ∃ layout, tree.chainLayout? function = some layout ∧ tree.ListsAround function layout ∧
        layout.Nodup := by
  obtain ⟨-, htree⟩ := grow?_grows h (wellFounded_ofModule module)
  refine ⟨fun source id hmem => ?_, fun function data hdata _ => ?_⟩
  · have hserves := grow?_serves (wellFounded_ofModule module) h hmem
    have hmarked := hserves
    obtain ⟨b, reader, owner, path, hb, hreader, howner, hpath, -⟩ := hserves
    refine ⟨b, reader, hb, hreader, fun hout => ?_⟩
    obtain ⟨data, hdata, -⟩ := path?_eq_some_iff.1 hpath
    obtain ⟨layout, hlayout, hin⟩ := hmarked.mem_chainLayout htree hb hreader hdata hout
    obtain ⟨layout', hlayout', haround⟩ := htree.listsAround hdata
    obtain rfl := Option.some.inj (hlayout.symm.trans hlayout')
    obtain ⟨declaring, hdeclaring, -⟩ := htree.listed hb
    refine ⟨layout, declaring, hlayout, List.count_eq_one_of_mem haround.nodup hin, hdeclaring, ?_⟩
    rintro ctx rfl rfl rfl
    refine choosePlacement_of_mem_chain hb hdeclaring howner ?_ hin
    exact fun heq => hout.2 (by rw [howner, hreader, heq])
  · obtain ⟨layout, hlayout, haround⟩ := htree.listsAround hdata
    exact ⟨layout, hlayout, haround, haround.nodup⟩

/-- The innermost function refers to a block two functions further out. The function it passes has
no reference of its own yet. -/
def passingReference : List TreeStep :=
  [.addFunction ⟨0⟩ "f", .addBlock ⟨1⟩ "b", .addFunction ⟨2⟩ "g", .addFunction ⟨3⟩ "h",
    .addBinding ⟨2⟩ "x" .lexical, .noteReference ⟨4⟩ ⟨0⟩, .addBinding ⟨1⟩ "y" .var,
    .noteReference ⟨3⟩ ⟨1⟩]

theorem grow_reaches_passingReference :
    ∃ tree b, (ofModule "m").grow? passingReference = some tree ∧ tree.binding? ⟨0⟩ = some b ∧
      tree.LeadsOut ⟨4⟩ b ∧
      ∃ layout, tree.chainLayout? ⟨4⟩ = some layout ∧ layout.count b.scope = 1 := by
  have hout : ∀ tree ∈ (ofModule "m").grow? passingReference, ∀ b ∈ tree.binding? ⟨0⟩,
      tree.enclosingFunction? ⟨4⟩ = some ⟨4⟩ ∧ tree.LeadsOut ⟨4⟩ b := by decide +kernel
  obtain ⟨tree, htree⟩ : ∃ tree, (ofModule "m").grow? passingReference = some tree :=
    Option.isSome_iff_exists.1 (by decide +kernel)
  obtain ⟨b, reader, hb, hreader, hserved⟩ :=
    (grow_reaches htree).1 ⟨4⟩ ⟨0⟩ (by simp [passingReference])
  obtain ⟨hinner, hleads⟩ := hout tree htree b hb
  obtain rfl := Option.some.inj (hreader.symm.trans hinner)
  obtain ⟨layout, -, hlayout, hcount, -⟩ := hserved hleads
  exact ⟨tree, b, htree, hb, hleads, layout, hlayout, hcount⟩

end ScopeTree

end ScriptLowering
