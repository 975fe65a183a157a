import ScriptLowering.Proofs.Routing.Stretch

/-!
# The code between the parts of a routed statement

What the machine does in the code that the routing emits itself: an exception or a return is passed
on to the regions around.
-/

namespace ScriptLowering

variable {V W : Type}
variable {ctx : Context}

/-! ### Regions and their fields -/

/-- The surroundings in which routed statements are lowered: no protected region of the machine is
around, the routed regions around have smaller numbers, and in an async function the driver can
resume at their throw labels. -/
structure Context.Routable (ctx : Context) (s : Session) : Prop where
  plain : ∀ frame ∈ ctx.frames, frame.isNative = false
  numbered : ∀ route, .routed route ∈ ctx.frames →
    ∃ n < s.routedCount, route.fields = .numbered n
  resumes : ctx.function.isAsync = true → ∀ route, .routed route ∈ ctx.frames →
    ∃ q ∈ s.resumePoints.toList, route.throwState = some q.state ∧ q.label = route.throwLabel

theorem Context.Routable.mono {s s' : Session} (h : ctx.Routable s)
    (hs : s.Grows s') : ctx.Routable s' where
  plain := h.plain
  numbered route hroute := by
    obtain ⟨n, hn, hfields⟩ := h.numbered route hroute
    exact ⟨n, hn.trans_le hs.routed, hfields⟩
  resumes hasync route hroute := by
    obtain ⟨q, hq, hq'⟩ := h.resumes hasync route hroute
    exact ⟨q, hs.points.subset hq, hq'⟩

/-- The run starts in surroundings as the lowering of a function has them outside its protected
regions. -/
def Lower.Site.Sound {m : Lower Unit} (a : Site m) : Prop :=
  a.ctx.Routable a.before

/-- The label is placed in the program. -/
def Program.HasLabel (p : Program V W) (l : Label) : Prop :=
  ∃ n : Nat, p.code[n]? = some (.label l)

/-- The program has the labels of the routed regions around. -/
def Program.Places (p : Program V W) (ctx : Context) : Prop :=
  ∀ route, .routed route ∈ ctx.frames → p.HasLabel route.throwLabel ∧
    ∀ f, route.finallyRoute = some f → p.HasLabel f.entry ∧ p.HasLabel f.exit

/-- With the labels of one more region, the program has those of the regions around code in it. -/
theorem Program.Places.cons {p : Program V W} {route : Route} (h : p.Places ctx)
    (hthrow : p.HasLabel route.throwLabel)
    (hfinally : ∀ f, route.finallyRoute = some f → p.HasLabel f.entry ∧ p.HasLabel f.exit) :
    p.Places { ctx with frames := .routed route :: ctx.frames } := by
  intro route' hroute
  rcases List.mem_cons.1 hroute with heq | hroute
  · cases heq
    exact ⟨hthrow, hfinally⟩
  · exact h route' hroute

theorem PendingFields.ne_of_notMem {fields : PendingFields} {leaf : String} {f : FieldRef}
    (h : f ∉ fields.refs leaf) :
    f ≠ ⟨leaf, fields.exception⟩ ∧ f ≠ ⟨leaf, fields.hasException⟩ ∧
      f ≠ ⟨leaf, fields.returnValue⟩ ∧ f ≠ ⟨leaf, fields.hasReturn⟩ := by
  simpa [refs, names] using h

/-! ### Abrupt completions -/

namespace Lower

variable {p : Program V W} {ctx : Context} {A Z s s' : Session} {t : Temp} {σ : Machine V W}

theorem asObject_shaped (h : (s.temps[t.index]?.getD .unknown).isObjectShaped = true) :
    asObject t ctx s = .ok t s := by
  have hstorage : storageOf t ctx s = .ok (s.temps[t.index]?.getD .unknown) s := rfl
  unfold asObject
  rw [bind_run hstorage, if_pos h]
  rfl

theorem asObject_object {t' : Temp} (ht : s.temps[t.index]? = some .object)
    (h : asObject t ctx s = .ok t' s') : t' = t ∧ s' = s := by
  rw [asObject_shaped (by rw [ht]; rfl)] at h
  cases h
  exact ⟨rfl, rfl⟩

/-- What has been boxed is not boxed again. -/
theorem asObject_again {t' : Temp} (h : asObject t ctx s = .ok t' s') :
    asObject t' ctx s' = .ok t' s' := by
  obtain ⟨storage, s₁, h₁, h₂⟩ := bind_ok h
  cases h₁
  split at h₂
  · cases h₂
    exact asObject_shaped ‹_›
  · cases h₂
    refine asObject_shaped ?_
    simp only [Array.getElem?_push_size, Option.getD_some]
    split <;> rfl

/-- The value is boxed first. From then on its code leads to where the context leads what completes
in the given way. -/
def Site.Ends {ends : Temp → Lower Unit} (d : Site (ends t)) (p : Program V W) (S : Set Nat)
    (ctx : Context) (z : Session) (c : Datum V → Completion V) : Prop :=
  ∃ u s₁, asObject t d.ctx d.before = .ok u s₁ ∧ ∀ σ : Machine V W, σ.pc = s₁.code.size →
    ∃ τ, p.RunOn S σ τ ∧ σ.SameBut (ctx.written (c (σ.temps u))) τ ∧
      p.Arrives ctx z (c (σ.temps u)) τ

/-- A throw leads to the throw label of the region around, with the exception in its field. -/
theorem throwValue_ends (d : Site (throwValue t)) (hp : p.Holds d.before d.after)
    (hplaces : p.Places d.ctx) (z : Session) : d.Ends p d.span d.ctx z .throw := by
  obtain ⟨u, s₁, h₁, h₂⟩ := bind_ok d.run
  have hgrows := Growing.grows h₁
  have hagain : throwValue u d.ctx s₁ = .ok () d.after := by
    unfold throwValue
    rw [bind_run (asObject_again h₁)]
    exact h₂
  replace hp := hp.between hgrows (.refl _)
  refine ⟨u, s₁, h₁, fun σ hσ => ?_⟩
  replace h₂ := read_ok h₂
  -- outside of all routed regions, the machine is at the throw itself
  have hissues : p.Issues throwValue d.ctx (σ.temps u) σ := ⟨u, s₁, _, hagain, hp, hσ, rfl⟩
  cases hregion : Frame.innermostRegion? d.ctx.frames with
  | none =>
    refine ⟨σ, .refl σ, .refl _ σ, ?_⟩
    simpa only [Program.Arrives, hregion] using hissues
  | some region =>
    cases region with
    | routed route =>
      rw [hregion] at h₂
      obtain ⟨_, s₂, h₃, h₄⟩ := (Stretch.whole h₂).split
      obtain ⟨⟨n, hn⟩, -⟩ := hplaces route (List.mem_of_find?_eq_some hregion)
      have hstore := h₃.store hp hσ
      have hbranch := h₄.branch hp hstore.2 hn
      refine ⟨_, (hstore.trans hbranch).1.mono (Set.Ico_subset_Ico_left hgrows.size_le),
        ⟨rfl, fun f hf => ?_⟩, ?_⟩
      · simp only [Context.written, hregion, Set.mem_singleton_iff] at hf
        exact Function.update_of_ne hf _ _
      · simp only [Program.Arrives, hregion]
        exact ⟨hn, Function.update_self ..⟩
    | _ =>
      refine ⟨σ, .refl σ, .refl _ σ, ?_⟩
      simpa only [Program.Arrives, hregion] using hissues

instance (fields : PendingFields) (route : FinallyRoute) (t : Temp) :
    Growing (returnThrough fields route t) := by
  unfold returnThrough
  infer_instance

theorem returnThrough_arrives {fields : PendingFields} {route : FinallyRoute}
    (h : Stretch A Z (returnThrough fields route t) ctx s () s') (hp : p.Holds A Z)
    (hnames : fields.names.Nodup)
    (hlabel : p.HasLabel (if route.isInside then route.exit else route.entry))
    (hσ : σ.pc = s.code.size) :
    ∃ τ, p.RunOn (Set.Ico A.code.size Z.code.size) σ τ ∧
      σ.SameBut (fields.refs ctx.leafName) τ ∧
      p.code[τ.pc]? = some (.label (if route.isInside then route.exit else route.entry)) ∧
      τ.fields ⟨ctx.leafName, fields.returnValue⟩ = σ.temps t ∧
      (τ.fields ⟨ctx.leafName, fields.hasReturn⟩).isTrue = true ∧
      (τ.fields ⟨ctx.leafName, fields.hasException⟩).isTrue = false := by
  obtain ⟨n, hn⟩ := hlabel
  obtain ⟨_, s₁, h₁, h⟩ := h.split
  obtain ⟨_, s₂, h₂, h⟩ := h.split
  obtain ⟨_, s₃, h₃, h⟩ := h.split
  obtain ⟨_, s₄, h₄, h₅⟩ := h.split
  have hstore := h₁.store hp hσ
  have hreturn := h₂.setFlag hp hstore.2
  have hflag := h₃.setFlag hp hreturn.2
  have hclear := h₄.clearState hp hflag.2
  have hbranch := h₅.branch hp hclear.2 hn
  simp only [PendingFields.names, List.nodup_cons, List.mem_cons, List.not_mem_nil, or_false,
    not_or] at hnames
  obtain ⟨⟨hexception, hreturned, hreturns⟩, ⟨hvalue, hflags⟩, hlast, -⟩ := hnames
  refine ⟨_, (hstore.trans (hreturn.trans (hflag.trans (hclear.trans hbranch)))).1,
    ⟨rfl, fun f hf => ?_⟩, hn, ?_⟩
  · simp [Machine.goto, Machine.put, Machine.set, Machine.store, PendingFields.ne_of_notMem hf]
  · simp [Machine.goto, Machine.put, Machine.set, Machine.store, Ne.symm hexception,
      Ne.symm hreturned, Ne.symm hreturns, Ne.symm hvalue, Ne.symm hflags, hlast]

/-- A return leads to the finally block of the region around, with the value in its field. -/
theorem returnValue_ends (d : Site (returnValue t)) (hctx : d.Sound) (hp : p.Holds d.before d.after)
    (hplaces : p.Places d.ctx) (z : Session) : d.Ends p d.span d.ctx z .ret := by
  have hdrop : (d.ctx.frames.dropWhile fun f => !f.isNative) = [] := by
    rw [List.dropWhile_eq_nil_iff]
    exact fun frame hframe => by simp [hctx.plain frame hframe]
  obtain ⟨u, s₁, h₁, h₂⟩ := bind_ok d.run
  have hgrows := Growing.grows h₁
  have hagain : returnValue u d.ctx s₁ = .ok () d.after := by
    unfold returnValue
    rw [bind_run (asObject_again h₁)]
    exact h₂
  replace hp := hp.between hgrows (.refl _)
  refine ⟨u, s₁, h₁, fun σ hσ => ?_⟩
  replace h₂ := read_ok h₂
  rw [hdrop] at h₂
  have hissues : p.Issues returnValue d.ctx (σ.temps u) σ := ⟨u, s₁, _, hagain, hp, hσ, rfl⟩
  cases hroute : d.ctx.frames.findSome? Frame.finallyRoute? with
  | none =>
    refine ⟨σ, .refl σ, .refl _ σ, ?_⟩
    simpa only [Program.Arrives, hroute] using hissues
  | some target =>
    obtain ⟨fields, route⟩ := target
    rw [hroute] at h₂
    obtain ⟨frame, hframe, hfinally⟩ := List.exists_of_findSome?_eq_some hroute
    cases frame with
    | routed region =>
      obtain ⟨route', hregion, heq⟩ := Option.map_eq_some_iff.1 hfinally
      obtain ⟨rfl, rfl⟩ := Prod.mk.inj heq
      obtain ⟨k, -, hnumbered⟩ := hctx.numbered region hframe
      obtain ⟨-, hlabels⟩ := hplaces region hframe
      have hlabel : p.HasLabel (if route'.isInside then route'.exit else route'.entry) := by
        split
        · exact (hlabels route' hregion).2
        · exact (hlabels route' hregion).1
      obtain ⟨τ, hrun, hsame, harrives⟩ := returnThrough_arrives (.whole h₂) hp
        (hnumbered ▸ PendingFields.names_numbered_nodup k) hlabel hσ
      refine ⟨τ, hrun.mono (Set.Ico_subset_Ico_left hgrows.size_le), ?_, ?_⟩
      · simpa only [Context.written, hroute] using hsame
      · simpa only [Program.Arrives, hroute] using harrives
    | _ => cases hfinally

end Lower

end ScriptLowering
