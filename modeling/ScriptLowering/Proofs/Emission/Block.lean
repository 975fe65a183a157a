import ScriptLowering.Proofs.Emission.Placement

/-!
# Blocks and scope chains

The code of a block with a capture object starts by creating the object. Inside, the carrier of the
object belongs to the floor: wherever control goes within the block, the object is at hand. So it is
when a scope chain is put together, for a function that the code binds or calls.
-/

namespace ScriptLowering

/-- What can be relied on around a block can be relied on inside, and its object as well. -/
theorem Ready.enterBlock {U K : Set Cell} {ctx : Context} {T : Targets} {s : Session}
    {H : List Label} {id : ScopeId} {carrier : Carrier}
    (h : Ready U K ctx ⟨[], T, [], H⟩ s) (hcarrier : ctx.isResumable = true → carrier.cells = ∅) :
    Ready U (carrier.cells ∪ K) { ctx with blocks := (id, carrier) :: ctx.blocks }
      ⟨H, T, H, []⟩ s where
  inv := ⟨h.inv.frames, h.inv.exit, h.inv.placements⟩
  fits := by
    have hclaims : ∀ l, l ∈ Locals.labels ⟨H, T, H, []⟩ ∨ l ∈ Locals.unplaced ⟨H, T, H, []⟩ →
        l ∈ Locals.labels ⟨[], T, [], H⟩ ∨ l ∈ Locals.unplaced ⟨[], T, [], H⟩ := by
      intro l
      simp only [Locals.labels, Locals.unplaced, List.mem_append]
      tauto
    have hapart : ∀ p ∈ T.all, p.1 ∉ H := by
      intro p hp hH
      exact h.fits.hidden p.1 hH (by simpa [Locals.labels] using ⟨p.2, hp⟩)
    exact
      { bound := fun l hl => h.fits.bound l (hclaims l hl)
        apart := fun l hl => h.fits.apart l (by simpa using hl)
        exit := fun e he l hl => h.fits.exit e he l (hclaims l hl)
        nodup := by simpa [Locals.unplaced] using h.fits.nodup
        free := by simpa [Locals.unplaced] using h.fits.nodup
        typed := hapart
        near := fun p hp hH => (hapart p (List.mem_append_left _ hp) hH).elim
        due := fun l hl => List.mem_append_left _ hl
        hidden := by simp }
  base := h.base.trans Set.subset_union_right
  pause hpause := by
    -- the carriers of a resumable function are state fields
    have hres : ctx.isResumable = true := by
      simp only [Context.mayPause, Bool.and_eq_true] at hpause
      exact hpause.1
    rw [hcarrier hres, Set.empty_union]
    exact h.pause hpause
  blocks p hp := by
    rcases List.mem_cons.1 hp with rfl | hp
    · exact Set.subset_union_left
    · exact (h.blocks p hp).trans Set.subset_union_right

namespace Lower

variable {U K : Set Cell} {ctx : Context} {T : Targets} {s s' : Session}
  {I : Set Cell} {value : Temp} {α : Type}
variable {carrier : Carrier} {scope : Option ScopeId} {data : Scope} {id : ScopeId}

/-! ### Code in a block -/

theorem Yields.congr {L : Locals} {m m' : Lower α} {O : α → Set Cell}
    (h : Yields U K ctx L s I m O) (heq : m' ctx s = m ctx s) : Yields U K ctx L s I m' O :=
  fun hready a s' hrun => h hready a s' (heq ▸ hrun)

/-- Code in a block that gets a capture object. -/
def withObject (id : ScopeId) (data : Scope) (code : Lower α) : Lower α := do
  let carrier ← durableCarrier "scope" (.reference (.scope data.name))
  let _ ← createBlockObject data carrier
  withinBlock id carrier code

/-- Code in a scope is code by itself, code in a block with a capture object, or not lowered at
all. -/
theorem inScope_cases (ctx : Context) (scope : Option ScopeId) :
    (∀ (α : Type) (code : Lower α) s, inScope scope code ctx s = code ctx s) ∨
    (∃ id data, ctx.tree.scope? id = some data ∧ ∀ (α : Type) (code : Lower α) s,
      inScope scope code ctx s = withObject id data code ctx s) ∨
    ∀ (α : Type) (code : Lower α) s a s', inScope scope code ctx s ≠ .ok a s' := by
  cases scope with
  | none => exact .inl fun _ _ _ => rfl
  | some id =>
    cases hdata : ctx.tree.scope? id with
    | none =>
      refine .inr (.inr fun α code s a s' h => ?_)
      obtain ⟨data, s₁, hscope, -⟩ := bind_ok h
      simp [(requireScope_ok hscope).1] at hdata
    | some data =>
      have hscope : ∀ s, requireScope id ctx s = .ok data s := by
        intro s
        show require (ctx.tree.scope? id) ctx s = _
        rw [hdata]
        rfl
      have hrun : ∀ (α : Type) (code : Lower α) s, inScope (some id) code ctx s =
          (if data.kind = .block && data.bindings.any ctx.tree.isCaptured then
            withObject id data code else code) ctx s := by
        intro α code s
        show (requireScope id >>= _) ctx s = _
        rw [bind_run (hscope s)]
        rfl
      by_cases hcond : (data.kind = .block && data.bindings.any ctx.tree.isCaptured) = true
      · exact .inr (.inl ⟨id, data, hdata, fun α code s => by rw [hrun, if_pos hcond]⟩)
      · exact .inl fun α code s => by rw [hrun, if_neg hcond]

theorem createBlockObject_yields :
    Yields U K ctx (.idle T) s I (createBlockObject data carrier)
      fun object => insert (.temp object) (carrier.cells ∪ I) := by
  refine .bind (.define trivial (by simp [Operation.reads, Operation.uses])) fun object => ?_
  exact .bind (storeCarrier_yields (.inl rfl)) fun _ => .pure (by grind)

/-- Code in a block whose capture object is in the carrier. The labels that it places are not seen
from outside. -/
theorem withinBlock_yields {H : List Label} {code : Lower α} {O : α → Set Cell}
    (hcarrier : ctx.isResumable = true → carrier.cells = ∅) (hI : carrier.cells ⊆ I)
    (hcode : Yields U (carrier.cells ∪ K) { ctx with blocks := (id, carrier) :: ctx.blocks }
      ⟨H, T, H, []⟩ s I code O) :
    Yields U K ctx ⟨[], T, [], H⟩ s I (withinBlock id carrier code) O := by
  intro hready a s' hrun
  obtain ⟨o, g, p⟩ := hcode (hready.enterBlock hcarrier) a s' hrun
  refine ⟨o, ⟨g.code, g.regions, g.points, g.before, g.inv.frames, g.inv.exit, g.inv.placements⟩,
    fun n => ?_, by simp, fun l hl => ?_, p.exit, fun z hz => (p.legal z hz).mono ?_,
    fun z hz hzU Λ hΛ => ?_⟩
  · simpa [Locals.unplaced] using p.tally n
  · rcases p.names l hl with h | h | h | h
    · exact .inl h
    · rcases List.mem_append.1 h with h | h
      · exact .inr (.inr (.inl h))
      · exact .inr (.inl (by simpa [Locals.labels] using h))
    · simp at h
    · exact .inr (.inr (.inr h))
  · refine (Jumps.Le.refl _).withLabels fun l hl => .inr ?_
    have hdue := p.due l
    simp only [List.mem_append] at hl ⊢
    tauto
  · obtain ⟨Λ', hagree, hset, hcert, hok⟩ := p.flow z hz hzU Λ
      { hΛ with frames := fun l hl => (hΛ.frames l hl).trans Set.subset_union_right }
    refine ⟨Λ', fun l ha _ hH => hagree l ha hH List.not_mem_nil, hset, hcert, fun A hA hK => ?_⟩
    obtain ⟨hinner, hO⟩ := hok A hA (Set.union_subset (hI.trans hA) hK)
    exact ⟨hinner.mono subset_rfl Set.subset_union_right, hO⟩

theorem withObject_yields {H : List Label} {code : Lower α} {O : α → Set Cell}
    (hcode : ∀ carrier s', Yields U (carrier.cells ∪ K)
      { ctx with blocks := (id, carrier) :: ctx.blocks } ⟨H, T, H, []⟩ s' (carrier.cells ∪ I) code O) :
    Yields U K ctx ⟨[], T, [], H⟩ s I (withObject id data code) O := by
  refine .bind durableCarrier_yields fun carrier {s₁ hcarrier _} => ?_
  refine .bind createBlockObject_yields fun object => .supply ?_ (Set.subset_insert ..)
  exact withinBlock_yields (durableCarrier_ok hcarrier) Set.subset_union_left (hcode carrier _)

/-- Code in a scope whose labels, if it has any to place, are its own. -/
theorem inScope_yields {code : Lower α} {O : α → Set Cell}
    (hplain : Yields U K ctx (.idle T) s I code O)
    (hblock : ∀ id carrier s', Yields U (carrier.cells ∪ K)
      { ctx with blocks := (id, carrier) :: ctx.blocks } (.idle T) s' (carrier.cells ∪ I) code O) :
    Yields U K ctx (.idle T) s I (inScope scope code) O := by
  rcases inScope_cases ctx scope with h | ⟨id, data, -, h⟩ | h
  · exact hplain.congr (h α code s)
  · exact (withObject_yields (hblock id)).congr (h α code s)
  · exact .of_fails fun a s' => h α code s a s'

/-! ### Renewal -/

theorem copyCaptured_yields {previous fresh : Temp} {id : BindingId}
    (hprevious : .temp previous ∈ I) (hfresh : .temp fresh ∈ I) :
    Keeps U K ctx T s I (copyCaptured data previous fresh id) := by
  refine .bind requireBinding_yields fun b => ?_
  refine .bind (.define trivial
    (by simpa [Operation.reads, Operation.uses] using hprevious)) fun value => ?_
  exact .weaken (.perform (by simpa [Effect.uses] using .inr hfresh)) (by grind)

theorem Yields.forM {β : Type} {f : β → Lower Unit} (xs : List β)
    (h : ∀ x ∈ xs, ∀ s', Keeps U K ctx T s' I (f x)) : Keeps U K ctx T s I (xs.forM f) := by
  induction xs generalizing s with
  | nil => exact .pure (by grind)
  | cons x xs ih =>
    exact .bind (h x (List.mem_cons_self ..) s) fun _ => ih fun y hy => h y (.tail _ hy)

theorem renewBlock_yields (hK : K ⊆ I) : Keeps U K ctx T s I (renewBlock scope) := by
  cases scope with
  | none => exact .pure (by grind)
  | some id =>
    refine .read_bind ?_
    split
    · exact .pure (by grind)
    · rename_i carrier hlookup
      refine .bind requireScope_yields fun data => .bind (loadBlock_yields hK hlookup) fun previous => ?_
      refine .bind createBlockObject_yields fun fresh => .read_bind ?_
      exact .weaken (.forM _ fun b _ s' => copyCaptured_yields (by grind) (by grind)) (by grind)

/-! ### Scope chains -/

theorem chainSource?_yields (hK : K ⊆ I) :
    Yields U K ctx (.idle T) s I (chainSource? id)
      fun source => tempCells (source.toList.filterMap ScopeSource.temp?) ∪ I := by
  refine .read_bind ?_
  split
  · exact .pure (by simp [ScopeSource.temp?, List.filterMap_cons])
  · split
    · exact .bind (loadBlock_yields hK ‹_›) fun t => .pure (by simp [ScopeSource.temp?, tempCells_cons])
    · refine .pure ?_
      cases ctx.chain.idxOf? id <;> simp [ScopeSource.temp?, List.filterMap_cons]

theorem chainSource_yields (hK : K ⊆ I) :
    Yields U K ctx (.idle T) s I (chainSource id)
      fun source => tempCells ([source].filterMap ScopeSource.temp?) ∪ I := by
  refine .bind (chainSource?_yields hK) fun source => ?_
  cases source with
  | none => exact .bind requireScope_yields fun _ => .decline
  | some source => exact .pure subset_rfl

/-- The elements of a chain, one for each scope of the layout. -/
theorem chainSources_yields {layout : List ScopeId} (hK : K ⊆ I) :
    Yields U K ctx (.idle T) s I (layout.mapM chainSource)
      fun sources => tempCells (sources.filterMap ScopeSource.temp?) ∪ I := by
  induction layout generalizing s I with
  | nil => exact .pure (by simp)
  | cons scope layout ih =>
    rw [List.mapM_cons]
    refine .bind (chainSource_yields hK) fun source => .bind (ih (by grind)) fun sources => .pure ?_
    rw [← List.singleton_append, List.filterMap_append, tempCells_append]
    grind

theorem buildScopes_yields {sources : List ScopeSource}
    (h : tempCells (sources.filterMap ScopeSource.temp?) ⊆ I) :
    YieldsTemp U K ctx T s I (buildScopes sources) := by
  refine .define trivial fun c hc => ?_
  obtain ⟨t, ht, rfl⟩ := List.mem_map.1 hc
  exact h ⟨t, ht, rfl⟩

/-- The chain of a known callee. -/
theorem calleeScopes_yields (hK : K ⊆ I) : YieldsTemp U K ctx T s I (calleeScopes id) := by
  refine .read_bind (.bind (.lookup fun _ _ h => (require_ok h).2) fun layout => ?_)
  split
  · exact .bind (chainSource?_yields hK) fun source =>
      .weaken (buildScopes_yields Set.subset_union_left) (by grind)
  · exact .bind (chainSources_yields hK) fun sources =>
      .weaken (buildScopes_yields Set.subset_union_left) (by grind)

theorem closure_yields {ref : FunctionRef} (hK : K ⊆ I) :
    YieldsTemp U K ctx T s I (closure ref) := by
  refine .bind (calleeScopes_yields hK) fun scopes => ?_
  exact .weaken (.define trivial (by simp [Operation.reads, Operation.uses])) (by grind)

theorem declareFunction_yields {id : BindingId} {ref : FunctionRef} (hK : K ⊆ I) :
    Keeps U K ctx T s I (declareFunction id ref) := by
  refine .bind (closure_yields hK) fun t => ?_
  exact .weaken (initBinding_yields (by grind) (by grind)) (by grind)

theorem hoist_yields {body : List Stmt} (hK : K ⊆ I) : Keeps U K ctx T s I (hoist body) := by
  induction body generalizing s with
  | nil => exact .pure (by grind)
  | cons stmt rest ih =>
    cases stmt with
    | functionDecl binding ref =>
      refine .bind (declareFunction_yields hK) fun _ => ?_
      exact .bind (.modify (.of_tables rfl) rfl) fun _ => ih
    | _ => exact ih

theorem loadBlocks_yields {blocks : OpenBlocks} (hblocks : ∀ p ∈ blocks, p ∈ ctx.blocks)
    (hK : K ⊆ I) :
    Yields U K ctx (.idle T) s I (blocks.mapM fun (_, carrier) => loadCarrier carrier)
      fun ts => tempCells ts ∪ I := by
  induction blocks generalizing s I with
  | nil => exact .pure (by grind)
  | cons p blocks ih =>
    rw [List.mapM_cons]
    refine .intro fun hready => ?_
    have hp := hready.blocks p (hblocks p (List.mem_cons_self ..))
    refine .bind (loadCarrier_yields (hp.trans hK)) fun t => ?_
    exact .bind (ih (fun q hq => hblocks q (.tail _ hq)) (by grind)) fun ts => .pure (by grind)

/-- The chain of an unknown callee. -/
theorem currentScopes_yields (hK : K ⊆ I) : YieldsTemp U K ctx T s I currentScopes := by
  refine .read_bind (.bind (loadBlocks_yields (by simp) (by grind)) fun ts => ?_)
  refine (buildScopes_yields (I := tempCells ts ∪ I) ?_).weaken
    fun _ => Set.insert_subset_insert Set.subset_union_right
  cases ctx.ownsLeaf <;> simp [Function.comp_def, ScopeSource.temp?, List.filterMap_cons]

end Lower

end ScriptLowering
