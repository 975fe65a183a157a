import ScriptLowering.Proofs.Emission.Exit

/-!
# Bindings

Every home that is chosen for a binding is one that its loads and stores may use: a slot for a
binding is a slot that may be read before it is set.
-/

namespace ScriptLowering

/-- The blocks that are open, innermost first, with the carriers of their capture objects. -/
abbrev OpenBlocks := List (ScopeId × Carrier)

theorem OpenBlocks.mem_of_lookup {blocks : OpenBlocks} {scope : ScopeId} {carrier : Carrier}
    (h : blocks.lookup scope = some carrier) : (scope, carrier) ∈ blocks := by
  obtain ⟨inner, outer, rfl, -⟩ := List.lookup_eq_some_iff.1 h
  simp

namespace Lower

variable {U K : Set Cell} {ctx : Context} {T : Targets} {s s' : Session}
  {I : Set Cell} {value : Temp} {α : Type}
variable {b : Binding} {id : BindingId} {carrier : Carrier} {p : Placement} {scope : ScopeId}

/-! ### Look-ups -/

theorem requireScope_ok {id : ScopeId} {data : Scope} (h : requireScope id ctx s = .ok data s') :
    ctx.tree.scope? id = some data ∧ s' = s :=
  require_ok (read_ok h)

theorem requireBinding_ok
    (h : requireBinding id ctx s = .ok b s') : ctx.tree.binding? id = some b ∧ s' = s :=
  require_ok (read_ok h)

theorem requireScope_yields {id : ScopeId} : Keeps U K ctx T s I (requireScope id) :=
  .lookup fun _ _ h => (requireScope_ok h).2

theorem requireBinding_yields : Keeps U K ctx T s I (requireBinding id) :=
  .lookup fun _ _ h => (requireBinding_ok h).2

/-! ### Homes of bindings -/

theorem capturedField_ok {field : FieldRef} (h : capturedField b ctx s = .ok field s') :
    (∃ data, ctx.tree.scope? b.scope = some data ∧ field = ⟨data.name, b.name⟩) ∧ s' = s := by
  obtain ⟨data, s₁, hscope, hrest⟩ := bind_ok h
  obtain ⟨hdata, rfl⟩ := requireScope_ok hscope
  cases hrest
  exact ⟨⟨data, hdata, rfl⟩, rfl⟩

/-- The homes that a binding can get, with what decides for each of them. Only a slot is new. -/
inductive Chooses (ctx : Context) (s : Session) (id : BindingId) (b : Binding) :
    Placement → Session → Prop
  | parent {owner : ScopeId} {position : Nat} {data : Scope}
      (howner : ctx.tree.enclosingFunction? b.scope = some owner) (hne : owner ≠ ctx.function.scope)
      (hposition : ctx.chain[position]? = some b.scope) (hdata : ctx.tree.scope? b.scope = some data) :
      Chooses ctx s id b (.parentField (position + ctx.chainShift) ⟨data.name, b.name⟩) s
  | block {field : FieldRef} (hcaptured : b.captured = true) :
      Chooses ctx s id b (.blockField b.scope field) s
  | captured {data : Scope} (howner : ctx.tree.enclosingFunction? b.scope = some ctx.function.scope)
      (hscope : b.scope = ctx.function.scope) (hcaptured : b.captured = true)
      (hdata : ctx.tree.scope? b.scope = some data) :
      Chooses ctx s id b (.leafField ⟨data.name, b.name⟩) s
  | resumable (howner : ctx.tree.enclosingFunction? b.scope = some ctx.function.scope)
      (hres : ctx.isResumable = true) :
      Chooses ctx s id b (.leafField ⟨ctx.leafName, if b.scope = ctx.function.scope then b.name
        else b.name ++ "$" ++ toString id.index⟩) s
  | argument {index : Nat} (hkind : b.kind = .parameter) : Chooses ctx s id b (.argument index) s
  | slot {storage : Storage} (hstorage : storage = (b.stableType.map Storage.ofType).getD .object) :
      Chooses ctx s id b (.slot ⟨s.slots.size⟩)
      { s with slots := s.slots.push { info := { name := b.name, storage, binding := some id } } }

/-- The home of a binding, when it is first used. -/
theorem choosePlacement_ok (h : choosePlacement id ctx s = .ok p s') :
    ∃ b, ctx.tree.binding? id = some b ∧ Chooses ctx s id b p s' := by
  unfold choosePlacement at h
  obtain ⟨b, s₁, hrequire, h₁⟩ := bind_ok h
  obtain ⟨hb, rfl⟩ := requireBinding_ok hrequire
  obtain ⟨owner, s₂, hrequire', h₂⟩ := bind_ok (read_ok h₁)
  obtain ⟨howner, rfl⟩ := require_ok hrequire'
  refine ⟨b, hb, ?_⟩
  clear h h₁ hrequire hrequire'
  simp only at h₂
  split at h₂
  · rename_i hne
    cases hposition : ctx.chain.idxOf? b.scope with
    | none =>
      rw [hposition] at h₂
      cases h₂
    | some position =>
      rw [hposition] at h₂
      obtain ⟨field, s₃, hfield, h₃⟩ := bind_ok h₂
      obtain ⟨⟨data, hdata, rfl⟩, rfl⟩ := capturedField_ok hfield
      cases h₃
      obtain ⟨hlt, hget, -⟩ := List.idxOf?_eq_some_iff.1 hposition
      exact .parent howner hne (List.getElem?_eq_some_iff.2 ⟨hlt, hget⟩) hdata
  rename_i hown
  obtain rfl : owner = ctx.function.scope := by simpa using hown
  split at h₂
  · rename_i hcaptured
    obtain ⟨field, s₃, hfield, h₃⟩ := bind_ok h₂
    obtain ⟨⟨data, hdata, rfl⟩, rfl⟩ := capturedField_ok hfield
    cases h₃
    split
    · exact .block hcaptured
    · rename_i hscope
      exact .captured howner (not_not.1 hscope) hcaptured hdata
  split at h₂
  · rename_i hres
    cases h₂
    rw [ite_not]
    exact .resumable howner hres
  · cases hkind : b.kind <;> cases hindex : b.paramIndex <;> rw [hkind, hindex] at h₂ <;> cases h₂
    all_goals first
      | exact .slot rfl
      | exact .argument hkind

theorem Chooses.calm (h : Chooses ctx s id b p s') :
    Yields.Calm s s' ∧ s'.code = s.code ∧ ∀ slot, p = .slot slot → s'.NamedSlot slot := by
  cases h with
  | slot =>
    refine ⟨⟨before_freshSlot, rfl, rfl, rfl, rfl, rfl⟩, rfl, ?_⟩
    rintro slot ⟨⟩
    exact ⟨_, Array.getElem?_push_size, rfl⟩
  | _ => exact ⟨.of_tables rfl, rfl, by simp⟩

/-- The home of a binding stays the one that was chosen first. -/
theorem placement_ok (hinv : ctx.Inv s) (h : placement id ctx s = .ok p s') :
    Yields.Silent ctx s s' ∧ ∀ slot, p = .slot slot → s'.NamedSlot slot := by
  have h₁ := get_ok h
  cases hlookup : s.placements.lookup id with
  | some chosen =>
    rw [hlookup] at h₁
    cases h₁
    obtain ⟨before, after, hsplit, -⟩ := List.lookup_eq_some_iff.1 hlookup
    exact ⟨(Yields.Calm.of_tables rfl).silent rfl, hinv.placements (id, p) (by simp [hsplit])⟩
  | none =>
    rw [hlookup] at h₁
    obtain ⟨chosen, s₁, hchoose, h₂⟩ := bind_ok h₁
    obtain ⟨b, -, hchooses⟩ := choosePlacement_ok hchoose
    obtain ⟨hcalm, hcode, hnamed⟩ := hchooses.calm
    cases h₂
    have hbefore : s₁.Before { s₁ with placements := (id, p) :: s₁.placements } :=
      ⟨le_rfl, fun _ e he => ⟨e, he, rfl⟩, fun _ he => he⟩
    have hinv₁ := hinv.mono hcalm.before hcalm.epilogue hcalm.placements
    refine ⟨⟨hcalm.before.trans hbefore, fun _ => { hinv₁ with placements := ?_ }, by simp [hcode],
      hcalm.regions, hcalm.points, hcalm.epilogue⟩, fun slot hslot => (hnamed slot hslot).mono hbefore⟩
    intro q hq
    rcases List.mem_cons.1 hq with rfl | hq
    · exact fun slot hslot => (hnamed slot hslot).mono hbefore
    · exact fun slot hslot => (hinv₁.placements q hq slot hslot).mono hbefore

theorem placement_yields : Keeps U K ctx T s I (placement id) :=
  .intro fun hready => .silent (P := fun _ => True)
    (fun _ _ h => ⟨(placement_ok hready.inv h).1, trivial⟩) fun _ _ => subset_rfl

/-! ### Capture objects of open blocks -/

/-- The capture object of an open block is at hand throughout the block. -/
theorem loadBlock_yields (hK : K ⊆ I) (hblock : ctx.blocks.lookup scope = some carrier) :
    YieldsTemp U K ctx T s I (loadCarrier carrier) :=
  .intro fun hready =>
    loadCarrier_yields ((hready.blocks _ (OpenBlocks.mem_of_lookup hblock)).trans hK)

theorem blockObject_yields (hK : K ⊆ I) : YieldsTemp U K ctx T s I (blockObject scope) := by
  refine .read_bind ?_
  split
  · exact loadBlock_yields hK ‹_›
  · exact .decline

/-! ### Loads and stores -/

theorem loadBinding_yields (hK : K ⊆ I) : YieldsTemp U K ctx T s I (loadBinding id) := by
  refine .intro fun hready => .bind placement_yields fun p {s₁ hp _} => ?_
  have hnamed := (placement_ok hready.inv hp).2
  cases p with
  | slot slot => exact loadVariable_yields (hnamed slot rfl)
  | blockField scope field =>
    refine .bind (blockObject_yields (by grind)) fun object => ?_
    exact .weaken (.define trivial (by simp [Operation.reads, Operation.uses])) (by grind)
  | _ => exact .define trivial (by simp [Operation.reads, Operation.uses])

theorem storePlacement_yields (hK : K ⊆ I) (hvalue : .temp value ∈ I) :
    Keeps U K ctx T s I (storePlacement p value) := by
  cases p with
  | slot slot => exact (storeSlot_yields (by grind)).weaken fun _ => Set.subset_insert ..
  | blockField scope field =>
    refine .bind (asObject_yields (by grind)) fun t => ?_
    refine .bind (blockObject_yields (by grind)) fun object => ?_
    exact .weaken (.perform (by simp [Effect.uses])) (by grind)
  | _ =>
    refine .bind (asObject_yields (by grind)) fun t => ?_
    exact .weaken (.perform (by simp [Effect.uses])) (by grind)

theorem initBinding_yields (hK : K ⊆ I) (hvalue : .temp value ∈ I) :
    Keeps U K ctx T s I (initBinding id value) :=
  .bind requireBinding_yields fun _ => .bind placement_yields fun _ =>
    storePlacement_yields (by grind) (by grind)

theorem assignBinding_yields (hK : K ⊆ I) (hvalue : .temp value ∈ I) :
    Keeps U K ctx T s I (assignBinding id value) := by
  refine .bind requireBinding_yields fun b => ?_
  split
  · exact throwBuiltInError_yields.weaken fun _ => Set.subset_univ _
  · exact .bind placement_yields fun p => storePlacement_yields (by grind) (by grind)

end Lower

end ScriptLowering
