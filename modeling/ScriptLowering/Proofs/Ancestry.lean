import ScriptLowering.Proofs.Resolution

/-!
# Walks out of a scope

Every question about ancestry follows the scopes from each one to the scope directly around it. A
scope is younger than the scope around it, whatever kinds of scopes have been nested, so a walk
comes to an end, and it ends at the module's global scope. All walks out of a scope meet the same
scopes.

## Main results

* `ScopeTree.WellFounded.walk`: the path of a scope is the walk along the parents;
* `ScopeTree.Built.walks`: what the questions about ancestry answer, in every tree that has grown.
-/

namespace ScriptLowering.ScopeTree

variable {tree : ScopeTree} {inner : ScopeKind → Prop} {id a b c : ScopeId} {path : List ScopeId}

/-- Going from each scope to the one directly around it, the scopes of the list are met, and nothing
is around the last one. -/
inductive Walk (tree : ScopeTree) : ScopeId → List ScopeId → Prop
  | stop {id : ScopeId} {s : Scope} (hs : tree.scope? id = some s) (hroot : s.parent? = none) :
      Walk tree id [id]
  | out {id parent : ScopeId} {s : Scope} {path : List ScopeId} (hs : tree.scope? id = some s)
      (hparent : s.parent? = some parent) (hout : Walk tree parent path) : Walk tree id (id :: path)

theorem WellFounded.walk (htree : tree.WellFounded inner) (hpath : tree.path? id = some path) :
    tree.Walk id path ∧ path.getLast? = some global := by
  refine htree.path_induction (motive := fun id path => tree.Walk id path ∧ path.getLast? = some global)
    (fun hroot _ => ?_) (fun id parent path hid hparent _ ih => ?_) hpath
  · obtain ⟨s, hs, hcons⟩ := path?_eq_some_iff.1 hroot
    exact ⟨.stop hs (by simp [Scope.parent?, ← (List.cons.inj hcons).2]), rfl⟩
  · obtain ⟨s, hs, hcons⟩ := path?_eq_some_iff.1 hid
    obtain ⟨outer, -, rfl⟩ := path?_eq_some_iff.1 hparent
    refine ⟨.out hs (by simp [Scope.parent?, ← (List.cons.inj hcons).2]) ih.1, ?_⟩
    rw [List.getLast?_cons_cons, ih.2]

theorem isWithin?_eq (hpath : tree.path? id = some path) :
    tree.isWithin? id a = some (path.contains a) := by
  obtain ⟨s, -, rfl⟩ := path?_eq_some_iff.1 hpath
  rw [isWithin?, hpath]
  split
  · simp_all
  · rfl

theorem isWithin?_iff :
    tree.isWithin? id a = some true ↔ id = a ∨ ∃ path, tree.path? id = some path ∧ a ∈ path := by
  by_cases heq : id = a
  · simp [isWithin?, heq]
  · simp [isWithin?, heq]

theorem WellFounded.isWithin?_trans (htree : tree.WellFounded inner)
    (hb : tree.isWithin? a b = some true) (hc : tree.isWithin? b c = some true) :
    tree.isWithin? a c = some true := by
  rw [isWithin?_iff] at hb hc ⊢
  rcases hb with rfl | ⟨path, hpath, hb⟩
  · exact hc
  rcases hc with rfl | ⟨path', hpath', hc⟩
  · exact .inr ⟨path, hpath, hb⟩
  obtain ⟨front, rest, hrest, rfl, -⟩ := htree.exists_front hpath hb
  obtain rfl := Option.some.inj (hrest.symm.trans hpath')
  exact .inr ⟨_, hpath, List.mem_append_right front hc⟩

theorem WellFounded.isWithin?_antisymm (htree : tree.WellFounded inner)
    (hb : tree.isWithin? a b = some true) (ha : tree.isWithin? b a = some true) : a = b := by
  rw [isWithin?_iff] at hb ha
  rcases hb with rfl | ⟨path, hpath, hb⟩
  · rfl
  rcases ha with rfl | ⟨path', hpath', ha⟩
  · rfl
  obtain ⟨a⟩ := a
  obtain ⟨b⟩ := b
  exact congrArg _ (Nat.le_antisymm (htree.index_le hpath' _ ha) (htree.index_le hpath _ hb))

/-- A reference from a scope to a binding of the tree can be recorded. -/
theorem WellFounded.noteReference? (htree : tree.WellFounded inner) (hid : tree.HasScope id)
    {binding : BindingId} {data : Binding} (hdata : tree.binding? binding = some data) :
    ∃ tree', tree.noteReference? id binding = some tree' := by
  obtain ⟨owner, howner⟩ := htree.closed.enclosingFunction? (htree.closed.declaring hdata)
  obtain ⟨reader, hreader⟩ := htree.closed.enclosingFunction? hid
  obtain ⟨path, hpath, -⟩ := Option.bind_eq_some_iff.1 hreader
  obtain ⟨-, rest, hrest, -⟩ := htree.exists_blocks hpath hreader
  simp only [ScopeTree.noteReference?, hdata, howner, hreader, hrest, Option.bind_eq_bind,
    Option.bind_some]
  split
  · exact ⟨_, rfl⟩
  · exact ⟨_, rfl⟩

/-- The lists of the scopes hold a binding once, in the scope that declares it. -/
theorem WellFounded.count_bindings (htree : tree.WellFounded inner) {binding : BindingId}
    {data : Binding} {s : Scope} (hdata : tree.binding? binding = some data)
    (hs : tree.scope? id = some s) : s.bindings.count binding = if id = data.scope then 1 else 0 := by
  split
  · rename_i heq
    obtain ⟨s', hs', hmem⟩ := htree.listed hdata
    obtain rfl := Option.some.inj (hs.symm.trans (heq ▸ hs'))
    exact List.count_eq_one_of_mem (htree.owned hs).1 hmem
  · rename_i hne
    refine List.count_eq_zero.2 fun hmem => hne ?_
    obtain ⟨data', hdata', rfl⟩ := (htree.owned hs).2 binding hmem
    rw [Option.some.inj (hdata.symm.trans hdata')]

/-- In every tree that has grown, the walks out of a scope end and agree. A scope is younger than
its parent; the walk along the parents ends at the global scope, which is the root; the enclosing
function is the first scope on it that is no block; the scope lies within those that are met, which
is a partial order; the chain of the scope is found and references from it are recorded. Each
binding is listed once, by its own scope. -/
theorem Built.walks (h : tree.Built) :
    (∀ id s parent, tree.scope? id = some s → s.parent? = some parent → parent.index < id.index) ∧
    (∀ id, tree.HasScope id → ∃ path function blocks rest, tree.Walk id path ∧
      tree.root? id = some global ∧ path = blocks ++ function :: rest ∧
      (∀ block ∈ blocks, tree.isBlock block = true) ∧ tree.isBlock function = false ∧
      tree.enclosingFunction? id = some function ∧ tree.isWithin? id function = some true ∧
      (∀ a, tree.isWithin? id a = some (path.contains a)) ∧
      (∃ layout, tree.chainLayout? id = some layout) ∧
      ∀ binding data, tree.binding? binding = some data →
        ∃ tree', tree.noteReference? id binding = some tree') ∧
    (∀ a, tree.isWithin? a a = some true) ∧
    (∀ a b c, tree.isWithin? a b = some true → tree.isWithin? b c = some true →
      tree.isWithin? a c = some true) ∧
    (∀ a b, tree.isWithin? a b = some true → tree.isWithin? b a = some true → a = b) ∧
    ∀ binding data, tree.binding? binding = some data → tree.HasScope data.scope ∧
      ∀ scope s, tree.scope? scope = some s →
        s.bindings.count binding = if scope = data.scope then 1 else 0 := by
  have htree := h.wellFounded
  refine ⟨fun id s parent hs hparent => ?_, fun id hid => ?_, fun a => isWithin?_iff.2 (.inl rfl),
    fun _ _ _ => htree.isWithin?_trans, fun _ _ => htree.isWithin?_antisymm,
    fun binding data hdata => ⟨htree.closed.declaring hdata, fun _ _ => htree.count_bindings hdata⟩⟩
  · rcases htree.ancestry hs with ⟨-, -, hnone⟩ | ⟨-, p, outer, -, hlt, hcons⟩
    · simp [Scope.parent?, hnone] at hparent
    · obtain rfl : p = parent := by simpa [Scope.parent?, hcons] using hparent
      exact hlt
  · obtain ⟨function, hfunction⟩ := htree.closed.enclosingFunction? hid
    obtain ⟨path, hpath, hfind⟩ := Option.bind_eq_some_iff.1 hfunction
    obtain ⟨hnot, blocks, rest, hsplit, hblocks⟩ := List.find?_eq_some_iff_append.1 hfind
    obtain ⟨hwalk, hlast⟩ := htree.walk hpath
    refine ⟨path, function, blocks, rest, hwalk, by simp [root?, hpath, hlast], hsplit,
      fun block hblock => by simpa using hblocks block hblock, by simpa using hnot, hfunction, ?_,
      fun a => isWithin?_eq hpath, ?_, fun _ _ => htree.noteReference? hid⟩
    · exact isWithin?_iff.2 (.inr ⟨path, hpath, by simp [hsplit]⟩)
    · exact (htree.closed.chainLayout? hid).imp fun _ => And.left

theorem walks_nested : ∃ tree : ScopeTree, tree.Built ∧ tree.root? ⟨2⟩ = some global := by
  have hmodule := (Built.ofModule "m").addScope
    (show (ofModule "m").addScope? global .global "n" = some (_, _) from rfl)
  have hblock := hmodule.addScope (show addScope? _ ⟨1⟩ .block "b" = some (_, _) from rfl)
  obtain ⟨-, hwalks, -⟩ := hblock.walks
  obtain ⟨-, -, -, -, -, hroot, -⟩ := hwalks ⟨2⟩ ⟨_, rfl⟩
  exact ⟨_, hblock, hroot⟩

end ScriptLowering.ScopeTree
