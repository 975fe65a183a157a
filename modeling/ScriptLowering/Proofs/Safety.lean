import Mathlib.Data.List.TakeWhile
import ScriptLowering.Proofs.InPlace
import ScriptLowering.Proofs.Simulation.Discipline

/-!
# Resolved functions are lowered or declined

The lowering halts for one of two reasons: it declines the function, or it looks something up that
is not there. A function that is resolved in a tree that has grown from that of a module gives no
occasion for the latter. The scopes and bindings that are looked up are those that the source refers
to and those that the tree refers to in turn, and a temp whose entry in the table is changed is one
that was entered.

This is a simulation of each run by itself (`safe`), which does not halt at what is missing. The
frames around the code and the passes are dealt with apart: a search in a stack of frames gives
positions of the stack, and the passes, carried out in place, stay within the code of any body.

## Main definitions

* `Lower.Safe`: the judgement for the basic steps;
* `Frame.search?`: a search in a stack, with positions.

## Main results

* `Lower.functionCode_safe`: the code of a resolved function is lowered or declined;
* `Frame.search?_filter`: a search by position is a search along the frames;
* `Function.compile_resolved`: so is the function, and no pass leaves the code.
-/

namespace ScriptLowering

variable {f : Function} {tree : ScopeTree}

namespace Lower

/-! ### Runs -/

section Runs

variable {tree : ScopeTree}

/-- A run in which nothing is missing. -/
def safe (tree : ScopeTree) : Discipline where
  fits ctx := ctx.tree = tree
  leads _ s s' := s.temps.size ≤ s'.temps.size
  temps s t := t.index < s.temps.size
  halts _ halt _ := halt ≠ .dangling
  refl _ _ := le_rfl
  trans := le_trans
  temps_mono hleads h := h.trans_le hleads
  tree? := some tree

/-- In a closed tree, all basic steps are safe. -/
theorem safe_lawful (htree : tree.Closed) : (safe tree).Lawful where
  toPlain := Discipline.Loose.plain
    { within := fun _ h => h
      withinBlock := fun h => h
      aside := fun _ h => (congrArg Array.size h.temps).ge
      allocate := (Array.size_push ..).ge.trans' (Nat.le_succ _)
      fresh := (Array.size_push ..).ge.trans_lt' (Nat.lt_succ_self _)
      emit := fun _ => le_rfl
      suspend := fun _ => le_rfl
      fuse := fun _ => (Array.size_setIfInBounds ..).ge
      resumePoint := le_rfl
      entered := fun _ h => h
      declined := fun _ _ => nofun
      tree := fun h htree => h.trans (Option.some.inj htree)
      resumable := fun _ => nofun
      closed := fun h => Option.some.inj h ▸ htree
      dangling := nofun
      anywhere := fun h => h
      raise := fun _ => le_rfl
      region := le_rfl }
  openRoute := fun _ _ => ⟨le_rfl, nofun⟩

/-- The code of a resolved function is lowered or declined. -/
theorem functionCode_safe (htree : tree.Closed) {f : Function} (hf : Resolved tree f) :
    (safe tree).Keeps [] (fun _ => []) (functionCode f) := by
  have := (safe_lawful htree).simulation
  refine .of_same (functionCode_relates ?_)
  rintro (_ | _) ⟨⟩
  exact hf

end Runs

end Lower

/-! ### Frames by position -/

namespace Frame

/-- The position of the innermost frame of a stack, outermost first, that satisfies `p`. -/
def lastIndex? (p : Frame → Bool) : List Frame → Option Nat
  | [] => none
  | f :: stack =>
    match lastIndex? p stack with
    | some index => some (index + 1)
    | none => if p f then some 0 else none

/-- The innermost frame of a stack that satisfies `p`, and the part of the stack outside of it. The
frame and the part are taken by their positions, which must be there. -/
def search? (p : Frame → Bool) (stack : List Frame) : Option (Option (Frame × List Frame)) :=
  match lastIndex? p stack with
  | none => some none
  | some index => do
    let frame ← stack[index]?
    if index ≤ stack.length then some (some (frame, stack.take index)) else none

variable {p q : Frame → Bool} {stack : List Frame} {f : Frame}

theorem lastIndex?_lt {index : Nat} (h : lastIndex? p stack = some index) : index < stack.length := by
  induction stack generalizing index with
  | nil => cases h
  | cons f stack ih =>
    rw [lastIndex?] at h
    split at h
    · rename_i inner hinner
      cases h
      exact Nat.succ_lt_succ (ih hinner)
    · split at h
      · cases h
        exact Nat.succ_pos _
      · cases h

theorem lastIndex?_concat (p : Frame → Bool) (stack : List Frame) (f : Frame) :
    lastIndex? p (stack ++ [f]) = if p f then some stack.length else lastIndex? p stack := by
  induction stack with
  | nil => cases hp : p f <;> simp [lastIndex?, hp]
  | cons g stack ih =>
    rw [List.cons_append, lastIndex?, ih]
    cases hp : p f
    · rfl
    · rfl

/-- A frame inside of the stack is what is searched for. -/
theorem search?_concat_of_pos (hp : p f) : search? p (stack ++ [f]) = some (some (f, stack)) := by
  simp [search?, lastIndex?_concat, hp]

/-- A frame inside of the stack is passed over. -/
theorem search?_concat_of_neg (hp : p f = false) : search? p (stack ++ [f]) = search? p stack := by
  rw [search?, search?, lastIndex?_concat, hp]
  cases hindex : lastIndex? p stack with
  | none => rfl
  | some index =>
    have hlt := lastIndex?_lt hindex
    have hframe : (stack ++ [f])[index]? = stack[index]? := List.getElem?_append_left hlt
    have htake : (stack ++ [f]).take index = stack.take index := List.take_append_of_le_length hlt.le
    have hlength : index ≤ (stack ++ [f]).length := by
      rw [List.length_append]
      omega
    simp only [Bool.false_eq_true, if_false, hframe, htake, hlength, hlt.le]

/-- A search in the stack of some frames is a search along all frames, innermost first. -/
theorem search?_filter (hpq : ∀ f, p f = true → q f = true) (frames : List Frame) :
    search? p (frames.filter q).reverse = some (match frames.dropWhile fun f => !p f with
      | [] => none
      | f :: outer => some (f, (outer.filter q).reverse)) := by
  induction frames with
  | nil => rfl
  | cons f frames ih =>
    cases hp : p f with
    | true =>
      rw [List.filter_cons_of_pos (hpq f hp), List.reverse_cons, search?_concat_of_pos hp,
        List.dropWhile_cons_of_neg (by simp [hp])]
    | false =>
      rw [List.dropWhile_cons_of_pos (by simp [hp]), ← ih]
      cases hq : q f with
      | true => rw [List.filter_cons_of_pos hq, List.reverse_cons, search?_concat_of_neg hp]
      | false => rw [List.filter_cons_of_neg (by simp [hq])]

/-- The regions around the code, outermost first. -/
def regions (frames : List Frame) : List Frame :=
  (frames.filter isRegion).reverse

/-- The loops, switches and labeled statements around the code, outermost first. -/
def targets (frames : List Frame) : List Frame :=
  (frames.filter fun f => !f.isRegion).reverse

/-- What is around the innermost protected region. -/
theorem search?_regions (frames : List Frame) :
    search? isNative (regions frames) = some (match frames.dropWhile fun f => !f.isNative with
      | [] => none
      | f :: outer => some (f, regions outer)) :=
  search?_filter (fun f h => by cases f <;> first | rfl | cases h) frames

/-- What a jump leads out of. -/
theorem search?_targets {plain : Frame → Bool} (hplain : ∀ f, plain f = true → f.isRegion = false)
    (name : Option String) (frames : List Frame) :
    (search? (Lower.refersTo plain name) (targets frames)).map (Option.map Prod.fst)
      = some (frames.find? (Lower.refersTo plain name)) := by
  have hpq : ∀ f, Lower.refersTo plain name f = true → (!f.isRegion) = true := by
    intro f hf
    cases name with
    | none => exact Bool.not_eq_true' _ ▸ hplain f hf
    | some name => cases f <;> first | rfl | cases hf
  rw [targets, search?_filter hpq, frames.find?_eq_head?_dropWhile_not]
  cases frames.dropWhile fun f => !Lower.refersTo plain name f <;> rfl

end Frame

/-! ### Functions -/

theorem Context.exists_ofFunction? (registry : Registry) (options : Options) (h : tree.HasScope f.scope) :
    ∃ ctx, Context.ofFunction? tree registry options f = some ctx ∧ ctx.tree = tree ∧ ctx.function = f := by
  obtain ⟨s, hs⟩ := h
  simp [Context.ofFunction?, ScopeTree.chainLayout?, ScopeTree.capturedBindings?, hs]

/-- A resolved function is lowered or declined. -/
theorem Function.lower_safe (htree : tree.Closed) (hf : Resolved tree f)
    (registry : Registry) (options : Options) {halt : Halt}
    (h : (f.lower tree registry options).result = .error halt) : halt ≠ .dangling := by
  obtain ⟨ctx, hctx, hctxTree, rfl⟩ := Context.exists_ofFunction? registry options hf.1
  unfold Function.lower at h
  rw [hctx] at h
  simp only [Lower.wholeFunction_run] at h
  have hsafe := Lower.functionCode_safe htree hf hctxTree
    (s := { events := #[.started ctx.function.name ctx.function.isResumable] })
    fun t ht => absurd ht List.not_mem_nil
  cases hrun : Lower.functionCode ctx.function ctx
      { events := #[.started ctx.function.name ctx.function.isResumable] } with
  | ok a s =>
    rw [Lower.bind_run hrun] at h
    cases h
  | error halt' s =>
    rw [Simulation.bind_halt hrun] at h
    rw [hrun] at hsafe
    cases h
    exact hsafe

/-- A function that is resolved in a tree that has grown from that of a module is lowered or
declined. The tree has whatever its own scopes and bindings refer to, searches in the stacks of
frames stay within the stacks, and the passes stay within the code, whatever the body. -/
theorem Function.compile_resolved (f : Function) (tree : ScopeTree) (registry : Registry)
    (options : Options) (htree : tree.Built) (hf : Resolved tree f) :
    ((∃ body, (f.compile tree registry options).result = .ok body) ∨
      ∃ reason, (f.compile tree registry options).result = .error (.declined reason)) ∧
    tree.Closed ∧
    (∀ frames, Frame.search? Frame.isNative (Frame.regions frames)
        = some (match frames.dropWhile fun f => !f.isNative with
          | [] => none
          | f :: outer => some (f, Frame.regions outer)) ∧
      ∀ plain ∈ [Frame.takesPlainBreak, Frame.isLoop], ∀ name,
        (Frame.search? (Lower.refersTo plain name) (Frame.targets frames)).map (Option.map Prod.fst)
          = some (frames.find? (Lower.refersTo plain name))) ∧
    ∀ b : Body, b.reuseCoercions? = some b.reuseCoercions ∧ b.normalizeTypes? = some b.normalizeTypes ∧
      b.bindMemberCalls? registry = some (b.bindMemberCalls registry) := by
  refine ⟨?_, htree.closed, fun frames => ⟨Frame.search?_regions frames, fun plain hplain name => ?_⟩,
    fun b => ⟨reuseCoercions?_eq b, normalizeTypes?_eq b, bindMemberCalls?_eq b registry⟩⟩
  · unfold Function.compile
    cases hlower : (f.lower tree registry options).result with
    | ok body =>
      simp only [hlower]
      exact .inl ⟨_, rfl⟩
    | error halt =>
      simp only [hlower]
      cases halt with
      | declined reason => exact .inr ⟨reason, rfl⟩
      | dangling => exact absurd rfl (Function.lower_safe htree.closed hf registry options hlower)
  · refine Frame.search?_targets (fun f hf => ?_) name frames
    rcases List.mem_cons.1 hplain with rfl | hplain
    · cases f <;> first | rfl | cases hf
    · obtain rfl := List.mem_singleton.1 hplain
      cases f <;> first | rfl | cases hf

/-- A block declares a variable and a function that refers to it. -/
def capturingBlock : List TreeStep :=
  [.addFunction ⟨0⟩ "f", .addBlock ⟨1⟩ "b", .addBinding ⟨2⟩ "x" .lexical, .addBinding ⟨2⟩ "g" .function,
    .addFunction ⟨2⟩ "g", .setCallable ⟨1⟩ ⟨"g"⟩ ⟨3⟩, .noteReference ⟨3⟩ ⟨0⟩]

/-- Calls the function of the block. -/
def callInBlock : Function where
  name := "callInBlock"
  kind := .function
  scope := ⟨1⟩
  body := [.block (some ⟨2⟩) [.declare .lexical [⟨.binding ⟨0⟩, some (.bool true)⟩],
    .functionDecl ⟨1⟩ ⟨⟨"g"⟩, ⟨3⟩, false⟩, .expr (.call (.ident ⟨1⟩) [] false)]]

theorem compile_resolved_callInBlock :
    ∃ tree, (ScopeTree.ofModule "m").grow? capturingBlock = some tree ∧ tree.Built ∧
      Resolved tree callInBlock ∧
      ((∃ body, (callInBlock.compile tree {} {}).result = .ok body) ∨
        ∃ reason, (callInBlock.compile tree {} {}).result = .error (.declined reason)) := by
  obtain ⟨tree, hgrow⟩ : ∃ tree, (ScopeTree.ofModule "m").grow? capturingBlock = some tree :=
    Option.isSome_iff_exists.1 (by decide +kernel)
  have htree : tree.Built := (ScopeTree.Built.ofModule "m").grow? hgrow
  have hscopes : ∀ tree ∈ (ScopeTree.ofModule "m").grow? capturingBlock, ∀ k < 4,
      (tree.scope? ⟨k⟩).isSome := by decide +kernel
  have hbindings : ∀ tree ∈ (ScopeTree.ofModule "m").grow? capturingBlock, ∀ k < 2,
      ∃ b ∈ tree.binding? ⟨k⟩, ∀ scope ∈ b.functionScope, (tree.scope? scope).isSome := by decide +kernel
  have hscope : ∀ k < 4, tree.HasScope ⟨k⟩ := fun k hk =>
    Option.isSome_iff_exists.1 (hscopes tree hgrow k hk)
  have hbinding : ∀ k < 2, tree.HasBinding ⟨k⟩ := fun k hk => by
    obtain ⟨b, hb, hall⟩ := hbindings tree hgrow k hk
    exact ⟨b, hb, fun scope h => Option.isSome_iff_exists.1 (hall scope h)⟩
  have hf : Resolved tree callInBlock := by
    refine ⟨hscope 1 (by decide), fun p hp => absurd hp List.not_mem_nil, ⟨?_, ?_, ?_, ?_, trivial⟩, trivial⟩
    · rintro _ ⟨⟩
      exact hscope 2 (by decide)
    · intro d hd
      obtain rfl := List.mem_singleton.1 hd
      refine ⟨hbinding 0 (by decide), ?_⟩
      rintro _ ⟨⟩
      exact trivial
    · exact ⟨hbinding 1 (by decide), hscope 3 (by decide)⟩
    · exact ⟨hbinding 1 (by decide), trivial⟩
  exact ⟨tree, hgrow, htree, hf, (Function.compile_resolved callInBlock tree {} {} htree hf).1⟩

end ScriptLowering
