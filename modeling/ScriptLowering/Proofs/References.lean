import ScriptLowering.Proofs.Ancestry

/-!
# The order of references

A reference marks the functions that it crosses and the binding that it leads to. Which ones these
are depends on the places of scopes and bindings only, which no mark changes. So the marks of a
sequence of references are those of its members, in whatever order they come and however often.
Since marks are never taken back, a scope chain that has been found only gets longer.

## Main results

* `ScopeTree.Marked.noteReferences`: the marks that a sequence of references leaves;
* `ScopeTree.noteReferences_order`: sequences with the same members give the same tree.
-/

namespace ScriptLowering.ScopeTree

variable {tree tree' tree'' : ScopeTree} {ref : ScopeId × BindingId}
  {refs refs' : List (ScopeId × BindingId)}

/-- Records references in order. -/
def noteReferences? (tree : ScopeTree) (refs : List (ScopeId × BindingId)) : Option ScopeTree :=
  refs.foldlM (fun tree ref => tree.noteReference? ref.1 ref.2) tree

/-- The scopes that a reference crosses on its way to the declaring function. -/
def crossed? (tree : ScopeTree) (ref : ScopeId × BindingId) : Option (List ScopeId) := do
  let declared ← tree.binding? ref.2
  let owner ← tree.enclosingFunction? declared.scope
  let reader ← tree.enclosingFunction? ref.1
  if reader = owner then return []
  return (← tree.path? reader).takeWhile (· ≠ owner)

/-- The trees differ in the marks of the references only: functions that are crossed, and bindings
that are reached across a function. -/
structure Marked (tree : ScopeTree) (refs : List (ScopeId × BindingId)) (tree' : ScopeTree) : Prop where
  scopes : ∀ id, tree'.scope? id = (tree.scope? id).map fun s =>
    if s.kind = .function ∧ ∃ ref ∈ refs, id ∈ (tree.crossed? ref).getD []
      then { s with readsOuter := true } else s
  bindings : ∀ id, tree'.binding? id = (tree.binding? id).map fun b =>
    if ∃ ref ∈ refs, ref.2 = id ∧ (tree.crossed? ref).getD [] ≠ []
      then { b with captured := true } else b

/-! ### One reference -/

theorem noteReference?_eq : tree.noteReference? ref.1 ref.2 = (tree.crossed? ref).map fun ids =>
    ids.foldl markReader (if ids = [] then tree else tree.markCaptured ref.2) := by
  rw [noteReference?, crossed?]
  cases tree.binding? ref.2 with
  | none => rfl
  | some declared =>
    cases howner : tree.enclosingFunction? declared.scope with
    | none => simp [howner]
    | some owner =>
      cases tree.enclosingFunction? ref.1 with
      | none => simp
      | some reader =>
        simp only [howner, Option.bind_eq_bind, Option.bind_some]
        split
        · rfl
        · rename_i hne
          cases hpath : tree.path? reader with
          | none => rfl
          | some path =>
            obtain ⟨s, -, rfl⟩ := path?_eq_some_iff.1 hpath
            simp [hne]

theorem Marks.isBlock (h : tree.Marks tree') (id : ScopeId) : tree'.isBlock id = tree.isBlock id := by
  obtain ⟨f, hf, hkeeps⟩ := h.scopes id
  cases hs : tree.scope? id <;> simp [ScopeTree.isBlock, hf, hs, (hkeeps _).1]

theorem Marks.path? (h : tree.Marks tree') (id : ScopeId) : tree'.path? id = tree.path? id := by
  obtain ⟨f, hf, hkeeps⟩ := h.scopes id
  cases hs : tree.scope? id <;> simp [ScopeTree.path?, hf, hs, (hkeeps _).2.1]

/-- What a reference crosses does not depend on marks. -/
theorem Marks.crossed? (h : tree.Marks tree') (ref : ScopeId × BindingId) :
    tree'.crossed? ref = tree.crossed? ref := by
  obtain ⟨f, hf, hkeeps⟩ := h.bindings ref.2
  cases hb : tree.binding? ref.2 <;>
    simp [ScopeTree.crossed?, enclosingFunction?, h.path?, h.isBlock, hf, hb, (hkeeps _).1]

/-! ### Sequences of references -/

theorem Marked.marks (h : tree.Marked refs tree') : tree.Marks tree' where
  scopes id := by
    refine ⟨_, h.scopes id, fun s => ?_⟩
    split
    · exact ⟨rfl, rfl, rfl, fun _ => rfl⟩
    · exact ⟨rfl, rfl, rfl, fun hr => hr⟩
  bindings id := by
    refine ⟨_, h.bindings id, fun b => ?_⟩
    split
    · exact ⟨rfl, fun _ => rfl⟩
    · exact ⟨rfl, fun hc => hc⟩

/-- One more reference adds its marks. -/
theorem Marked.noteReference (h : tree.Marked refs tree')
    (hnote : tree'.noteReference? ref.1 ref.2 = some tree'') : tree.Marked (refs ++ [ref]) tree'' := by
  rw [noteReference?_eq, h.marks.crossed? ref] at hnote
  obtain ⟨ids, hids, rfl⟩ := Option.map_eq_some_iff.1 hnote
  refine ⟨fun id => ?_, fun id => ?_⟩
  · have hsame : (if ids = [] then tree' else tree'.markCaptured ref.2).scope? id = tree'.scope? id := by
      split <;> rfl
    rw [scope?_foldl_markReader, hsame, h.scopes]
    cases tree.scope? id with
    | none => rfl
    | some s =>
      by_cases hkind : s.kind = .function <;> by_cases hid : id ∈ ids <;>
        by_cases hold : ∃ ref ∈ refs, id ∈ (tree.crossed? ref).getD [] <;>
        simp [hkind, hid, hold, hids, or_and_right, exists_or]
  · have hsame : (ids.foldl markReader (if ids = [] then tree' else tree'.markCaptured ref.2)).binding? id
        = if ref.2 = id ∧ ids ≠ [] then (tree'.binding? id).map fun b => { b with captured := true }
          else tree'.binding? id := by
      rw [binding?, bindings_foldl_markReader]
      by_cases hids : ids = []
      · simp [hids, binding?]
      · simp only [hids, if_false, ne_eq, not_false_eq_true, and_true]
        exact binding?_updateBinding ..
    rw [hsame, h.bindings]
    cases tree.binding? id with
    | none => simp
    | some b =>
      by_cases hid : ref.2 = id ∧ ids ≠ [] <;>
        by_cases hold : ∃ ref ∈ refs, ref.2 = id ∧ (tree.crossed? ref).getD [] ≠ [] <;>
        simp [hid, hold, hids, or_and_right, exists_or]

theorem Marked.noteReferences (h : tree.Marked refs tree')
    (hnote : tree'.noteReferences? refs' = some tree'') : tree.Marked (refs ++ refs') tree'' := by
  induction refs' generalizing refs tree' with
  | nil =>
    cases hnote
    simpa using h
  | cons ref rest ih =>
    obtain ⟨next, hnext, hrest⟩ := Option.bind_eq_some_iff.1 hnote
    simpa using ih (h.noteReference hnext) hrest

/-- References can be recorded where each of them can. -/
theorem Marks.noteReferences?_isSome (h : tree.Marks tree') :
    (tree'.noteReferences? refs).isSome ↔ ∀ ref ∈ refs, (tree.crossed? ref).isSome := by
  induction refs generalizing tree' with
  | nil => simp [noteReferences?]
  | cons ref rest ih =>
    have hnote : tree'.noteReferences? (ref :: rest)
        = (tree'.noteReference? ref.1 ref.2).bind (·.noteReferences? rest) := rfl
    rw [hnote, List.forall_mem_cons, ← h.crossed? ref]
    cases hnext : tree'.noteReference? ref.1 ref.2 with
    | none =>
      rw [noteReference?_eq, Option.map_eq_none_iff] at hnext
      simp [hnext]
    | some next =>
      have hsome : (tree'.crossed? ref).isSome := by
        rw [noteReference?_eq] at hnext
        obtain ⟨ids, hids, -⟩ := Option.map_eq_some_iff.1 hnext
        simp [hids]
      simp [hsome, ih (h.trans (noteReference?_marks hnext))]

/-- The marks determine the tree. -/
theorem Marked.unique (h : tree.Marked refs tree') (h' : tree.Marked refs' tree'')
    (hsame : ∀ ref, ref ∈ refs ↔ ref ∈ refs') : tree' = tree'' := by
  have hscopes : ∀ id, tree'.scope? id = tree''.scope? id := fun id => by
    rw [h.scopes, h'.scopes]
    simp only [hsame]
  have hbindings : ∀ id, tree'.binding? id = tree''.binding? id := fun id => by
    rw [h.bindings, h'.bindings]
    simp only [hsame]
  obtain ⟨scopes, bindings⟩ := tree'
  obtain ⟨scopes', bindings'⟩ := tree''
  obtain rfl : scopes = scopes' := Array.ext_getElem? fun i => hscopes ⟨i⟩
  obtain rfl : bindings = bindings' := Array.ext_getElem? fun i => hbindings ⟨i⟩
  rfl

/-! ### Scope chains -/

theorem Marks.hasCaptureObject? (h : tree.Marks tree') {id : ScopeId}
    (hobject : tree.hasCaptureObject? id = some true) : tree'.hasCaptureObject? id = some true := by
  have hcaptured : ∀ id, tree.isCaptured id = true → tree'.isCaptured id = true := by
    intro id hid
    obtain ⟨f, hf, hkeeps⟩ := h.bindings id
    obtain ⟨b, hb, hmark⟩ := (Option.any_eq_true _ _).1 hid
    simp [isCaptured, hf, hb, (hkeeps b).2 hmark]
  obtain ⟨f, hf, hkeeps⟩ := h.scopes id
  obtain ⟨s, hs, hany⟩ := Option.map_eq_some_iff.1 hobject
  rw [ScopeTree.hasCaptureObject?, hf, hs, Option.map_some, Option.map_some, (hkeeps s).1,
    (hkeeps s).2.2.1]
  simp only [Bool.or_eq_true, List.any_eq_true] at hany
  simp only [Option.some.injEq, Bool.or_eq_true, List.any_eq_true]
  exact hany.imp_right (Exists.imp fun b hb => ⟨hb.1, hcaptured b hb.2⟩)

/-- More marks let more capture objects through. -/
theorem Marks.reachable (h : tree.Marks tree') (path : List ScopeId) :
    (tree.reachable path).Sublist (tree'.reachable path) := by
  induction path with
  | nil => exact .slnil
  | cons s outer ih =>
    have hopen : (tree.isBlock s || (tree.isFunction s && tree.readsOuter s)) = true →
        (tree'.isBlock s || (tree'.isFunction s && tree'.readsOuter s)) = true := by
      obtain ⟨f, hf, hkeeps⟩ := h.scopes s
      cases hs : tree.scope? s with
      | none => simp [ScopeTree.isBlock, isFunction, hs]
      | some data =>
        simp only [ScopeTree.isBlock, isFunction, ScopeTree.readsOuter, hf, hs, Option.map_some,
          Option.any_some, (hkeeps data).1, Bool.or_eq_true, Bool.and_eq_true]
        exact Or.imp_right fun hreads => ⟨hreads.1, (hkeeps data).2.2.2 hreads.2⟩
    rw [ScopeTree.reachable, ScopeTree.reachable]
    refine List.Sublist.append ?_ ?_
    · split
      · rename_i hlets
        rw [if_pos (hopen hlets)]
        exact ih
      · exact List.nil_sublist _
    · split
      · rename_i hobject
        rw [if_pos (h.hasCaptureObject? hobject)]
      · exact List.nil_sublist _

theorem Marks.chainLayout? (h : tree.Marks tree') {function : ScopeId} {layout : List ScopeId}
    (hlayout : tree.chainLayout? function = some layout) :
    ∃ layout', tree'.chainLayout? function = some layout' ∧ layout.Sublist layout' := by
  obtain ⟨f, hf, hkeeps⟩ := h.scopes function
  obtain ⟨s, hs, rfl⟩ := Option.map_eq_some_iff.1 hlayout
  refine ⟨_, by rw [ScopeTree.chainLayout?, hf, hs]; rfl, ?_⟩
  dsimp only
  split
  · rename_i hreads
    rw [if_pos ((hkeeps s).2.2.2 hreads), (hkeeps s).2.1]
    exact h.reachable _
  · exact List.nil_sublist _

/-- The order of references does not matter. Two sequences that mention the same references, in any
order and however often, give the same tree, and so the same scope chains and captured bindings; in
a tree that has grown, references between what it has can always be recorded. No scope leaves a
chain when references are added. -/
theorem noteReferences_order (tree : ScopeTree) {refs refs' : List (ScopeId × BindingId)}
    (hsame : ∀ ref, ref ∈ refs ↔ ref ∈ refs') :
    tree.noteReferences? refs = tree.noteReferences? refs' ∧
    (tree.Built → (∀ ref ∈ refs, tree.HasScope ref.1 ∧ ∃ b, tree.binding? ref.2 = some b) →
      ∃ tree', tree.noteReferences? refs = some tree') ∧
    ∀ tree', tree.noteReferences? refs = some tree' →
      (∀ tree'', tree.noteReferences? refs' = some tree'' → tree'.chainLayout? = tree''.chainLayout? ∧
        tree'.capturedBindings? = tree''.capturedBindings?) ∧
      ∀ function layout, tree.chainLayout? function = some layout →
        ∃ layout', tree'.chainLayout? function = some layout' ∧ layout.Sublist layout' := by
  have hnone : tree.Marked [] tree := ⟨by simp, by simp⟩
  have heq : tree.noteReferences? refs = tree.noteReferences? refs' := by
    have hsome : (tree.noteReferences? refs).isSome ↔ (tree.noteReferences? refs').isSome := by
      simp only [hnone.marks.noteReferences?_isSome, hsame]
    cases hnote : tree.noteReferences? refs with
    | none => exact Eq.symm (by simpa [hnote] using hsome)
    | some tree' =>
      obtain ⟨tree'', hnote'⟩ := Option.isSome_iff_exists.1 (hsome.1 (by simp [hnote]))
      rw [hnote', (hnone.noteReferences hnote).unique (hnone.noteReferences hnote') (by simpa using hsame)]
  refine ⟨heq, fun hbuilt hhas => ?_, fun tree' hnote => ⟨fun tree'' hnote' => ?_, fun _ _ => ?_⟩⟩
  · refine Option.isSome_iff_exists.1 (hnone.marks.noteReferences?_isSome.2 fun ref href => ?_)
    obtain ⟨hscope, b, hb⟩ := hhas ref href
    obtain ⟨tree', hnote⟩ := hbuilt.wellFounded.noteReference? hscope hb
    rw [noteReference?_eq] at hnote
    obtain ⟨ids, hids, -⟩ := Option.map_eq_some_iff.1 hnote
    simp [hids]
  · obtain rfl := Option.some.inj (hnote.symm.trans (heq.trans hnote'))
    exact ⟨rfl, rfl⟩
  · exact (hnone.noteReferences hnote).marks.chainLayout?

theorem noteReferences_order_repeated :
    ∃ tree tree', (ofModule "m").grow? [.addFunction ⟨0⟩ "f", .addBlock ⟨1⟩ "b", .addFunction ⟨2⟩ "g",
        .addBinding ⟨1⟩ "x" .var, .addBinding ⟨2⟩ "y" .lexical] = some tree ∧
      tree.noteReferences? [(⟨3⟩, ⟨1⟩), (⟨3⟩, ⟨0⟩), (⟨3⟩, ⟨1⟩)] = some tree' ∧
      tree.noteReferences? [(⟨3⟩, ⟨0⟩), (⟨3⟩, ⟨1⟩)] = some tree' ∧
      tree'.chainLayout? ⟨3⟩ = some [⟨1⟩, ⟨2⟩] := by
  obtain ⟨tree, htree⟩ : ∃ tree, (ofModule "m").grow? [.addFunction ⟨0⟩ "f", .addBlock ⟨1⟩ "b",
      .addFunction ⟨2⟩ "g", .addBinding ⟨1⟩ "x" .var, .addBinding ⟨2⟩ "y" .lexical] = some tree :=
    Option.isSome_iff_exists.1 (by decide +kernel)
  obtain ⟨tree', hnote⟩ : ∃ tree', tree.noteReferences? [(⟨3⟩, ⟨0⟩), (⟨3⟩, ⟨1⟩)] = some tree' := by
    obtain rfl := Option.some.inj htree
    exact Option.isSome_iff_exists.1 (by decide +kernel)
  have hsame : tree.noteReferences? [(⟨3⟩, ⟨1⟩), (⟨3⟩, ⟨0⟩), (⟨3⟩, ⟨1⟩)] =
      tree.noteReferences? [(⟨3⟩, ⟨0⟩), (⟨3⟩, ⟨1⟩)] := (tree.noteReferences_order (by grind)).1
  refine ⟨tree, tree', htree, hsame.trans hnote, hnote, ?_⟩
  obtain rfl := Option.some.inj htree
  obtain rfl := Option.some.inj hnote
  decide +kernel

end ScriptLowering.ScopeTree
