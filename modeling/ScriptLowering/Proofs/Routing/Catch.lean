import ScriptLowering.Proofs.Routing
import ScriptLowering.Proofs.Routing.Shelter

/-!
# Exceptions and the routed `catch`

A routed `try` statement with a `catch` clause catches what its block throws, as long as the throw
is not inside a protected region of the machine that is itself inside the block. Such a throw stores
the exception in the pending field of the innermost routed region and goes to its throw label. If
that region belongs to another routed statement in the block, one that does not catch the exception,
the exception is thrown again behind the finalizer, and so it comes to the throw label of the outer
statement in the end. There the handler is entered with the exception.

Inside a protected region, such as a `try` with a finalizer and without a suspend point, a throw is
left to the machine, which does not know the routed handler. So an exception passes by the `catch`
clause there.

## Main definitions

* `Lower.CatchSites`: the runs that lower the parts of a routed statement with a handler;
* `Lower.Site.Nests`: how code in a block is inside further routed statements.

## Main results

* `Lower.Site.Nests.forwards`: exceptions go through the finalizers of the statements in between.
-/

namespace ScriptLowering

variable {V W : Type}

/-- Frames that are no regions do not change which region is the innermost one. -/
theorem Frame.innermostRegion?_append {inner : List Frame} (h : ∀ f ∈ inner, f.isRegion = false)
    (frames : List Frame) : innermostRegion? (inner ++ frames) = innermostRegion? frames := by
  have hnone : inner.find? isRegion = none := by
    simpa using h
  unfold innermostRegion?
  rw [List.find?_append, hnone, Option.none_or]

open Lower

/-! ### Exceptions on their way -/

namespace Program

variable {p : Program V W} {S S' : Set Nat} {ctx inner outer : Context} {v : Datum V}
  {finalizers finalizers' : List ((m : Lower Unit) × Site m)} {σ τ : Machine V W}

theorem Unwinds.mono (h : p.Unwinds S ctx v finalizers σ) (hS : S ⊆ S') :
    p.Unwinds S' ctx v finalizers σ := by
  induction finalizers generalizing σ with
  | nil =>
    obtain ⟨τ, hτ, harrives⟩ := h
    exact ⟨τ, hτ.mono hS, harrives⟩
  | cons F finalizers ih =>
    obtain ⟨τ, hτ, hpc, hnext⟩ := h
    exact ⟨τ, hτ.mono hS, hpc, fun υ hdone => ih (hnext υ hdone)⟩

theorem Unwinds.prepend (h : p.Unwinds S ctx v finalizers τ) (hrun : p.RunOn S σ τ) :
    p.Unwinds S ctx v finalizers σ := by
  cases finalizers with
  | nil =>
    obtain ⟨υ, hυ, harrives⟩ := h
    exact ⟨υ, hrun.trans hυ, harrives⟩
  | cons F finalizers =>
    obtain ⟨υ, hυ, hnext⟩ := h
    exact ⟨υ, hrun.trans hυ, hnext⟩

/-- Where the exception has come to the inner context, it goes on to the outer one. -/
theorem Unwinds.append (h : p.Unwinds S inner v finalizers σ)
    (hnext : p.Forwards S inner outer finalizers') :
    p.Unwinds S outer v (finalizers ++ finalizers') σ := by
  induction finalizers generalizing σ with
  | nil =>
    obtain ⟨τ, hτ, harrives⟩ := h
    exact (hnext v τ harrives).prepend hτ
  | cons F finalizers ih =>
    obtain ⟨τ, hτ, hpc, hdone⟩ := h
    exact ⟨τ, hτ, hpc, fun υ hυ => ih (hdone υ hυ)⟩

theorem Forwards.mono (h : p.Forwards S inner outer finalizers) (hS : S ⊆ S') :
    p.Forwards S' inner outer finalizers :=
  fun v σ harrives => (h v σ harrives).mono hS

theorem Forwards.trans (h : p.Forwards S inner ctx finalizers)
    (h' : p.Forwards S ctx outer finalizers') :
    p.Forwards S inner outer (finalizers ++ finalizers') :=
  fun v σ harrives => (h v σ harrives).append h'

/-- With the same innermost region, exceptions go to the same place. -/
theorem Forwards.of_region (hleaf : inner.leafName = ctx.leafName)
    (hregion : Frame.innermostRegion? inner.frames = Frame.innermostRegion? ctx.frames)
    (hrouted : ctx.IsRouted) : p.Forwards S inner ctx [] := by
  obtain ⟨route, hroute⟩ := hrouted
  intro v σ harrives
  refine ⟨σ, .refl σ, ?_⟩
  simp only [Arrives, hregion, hroute, hleaf] at harrives ⊢
  exact harrives

end Program

namespace Lower

variable {m m' block finalizer : Lower Unit} {handler : Option (Temp → Lower Unit)} {ctx : Context}
  {s s₁ s' : Session} {p : Program V W} {t u : Temp} {fields : PendingFields}

/-! ### Code in a block -/

theorem Site.Within.frames {d : Site m} {b : Site m'} {inner : List Frame} (h : d.Within b inner) :
    d.ctx.frames = inner ++ b.ctx.frames := by
  rw [h.ctx]

theorem Site.Within.leafName {d : Site m} {b : Site m'} {inner : List Frame}
    (h : d.Within b inner) : d.ctx.leafName = b.ctx.leafName := by
  rw [h.ctx]

/-- The run is a part of another one. What it throws is not caught in between, but it goes through
the finalizers of the list. -/
inductive Site.Nests (b : Site m') :
    {m : Lower Unit} → Site m → List ((m : Lower Unit) × Site m) → Prop
  | self : b.Nests b []
  /-- In a loop, a labelled statement or a scope. -/
  | plain {m₁ m₂ : Lower Unit} {e : Site m₁} {d : Site m₂} {inner : List Frame}
      {finalizers : List ((m : Lower Unit) × Site m)} (he : b.Nests e finalizers)
      (hd : d.Within e inner) (hinner : ∀ f ∈ inner, f.isRegion = false) : b.Nests d finalizers
  /-- In the block of a routed statement that has no handler. -/
  | tried {m₁ block finalizer : Lower Unit} {e : Site m₁} {L : FinallySites block none finalizer}
      {fields : PendingFields} {finalizers : List ((m : Lower Unit) × Site m)}
      (he : b.Nests e finalizers) (hL : L.RoutedParts e fields) :
      b.Nests L.tried (⟨_, L.final⟩ :: finalizers)
  /-- In the handler of a routed statement. -/
  | caught {m₁ block finalizer : Lower Unit} {handler : Option (Temp → Lower Unit)} {e : Site m₁}
      {L : FinallySites block handler finalizer} {fields : PendingFields}
      {finalizers : List ((m : Lower Unit) × Site m)} (he : b.Nests e finalizers)
      (hL : L.RoutedParts e fields) (h : Temp → Lower Unit) (hh : handler = some h) :
      b.Nests (L.caught h hh).site (⟨_, L.final⟩ :: finalizers)
  /-- In the finalizer of a routed statement. -/
  | final {m₁ block finalizer : Lower Unit} {handler : Option (Temp → Lower Unit)} {e : Site m₁}
      {L : FinallySites block handler finalizer} {fields : PendingFields}
      {finalizers : List ((m : Lower Unit) × Site m)} (he : b.Nests e finalizers)
      (hL : L.RoutedParts e fields) : b.Nests L.final finalizers

namespace Site.Nests

variable {b : Site m'} {d : Site m} {finalizers : List ((m : Lower Unit) × Site m)}

/-- In the same context, a part is nested in the same way. -/
theorem part {m₁ : Lower Unit} {e : Site m₁} (h : b.Nests e finalizers) (hctx : d.ctx = e.ctx)
    (hbefore : e.before.Grows d.before) (hafter : d.after.Grows e.after) :
    b.Nests d finalizers := by
  have hwithin : d.Within e [] := ⟨by rw [hctx]; rfl, hbefore, hafter⟩
  exact h.plain hwithin (List.forall_mem_nil _)

theorem grows (h : b.Nests d finalizers) : b.before.Grows d.before ∧ d.after.Grows b.after := by
  induction h with
  | self => exact ⟨.refl _, .refl _⟩
  | plain _ hd _ ih => exact ⟨ih.1.trans hd.before, hd.after.trans ih.2⟩
  | tried _ hL ih => exact ⟨ih.1.trans hL.of.tried.before, hL.of.tried.after.trans ih.2⟩
  | caught _ hL h hh ih =>
    exact ⟨ih.1.trans (hL.of.caught h hh).before, (hL.of.caught h hh).after.trans ih.2⟩
  | final _ hL ih => exact ⟨ih.1.trans hL.of.final.before, hL.of.final.after.trans ih.2⟩

theorem span_subset (h : b.Nests d finalizers) : d.span ⊆ b.span :=
  Set.Ico_subset_Ico h.grows.1.size_le h.grows.2.size_le

theorem isRouted (h : b.Nests d finalizers) (hb : b.ctx.IsRouted) : d.ctx.IsRouted := by
  induction h with
  | self => exact hb
  | plain _ hd hinner ih =>
    obtain ⟨route, hroute⟩ := ih
    refine ⟨route, ?_⟩
    rw [hd.frames, Frame.innermostRegion?_append hinner, hroute]
  | tried _ hL =>
    obtain ⟨route, f, hctx, -, -⟩ := hL.of.tried.inside
    exact ⟨route, by rw [hctx]; rfl⟩
  | caught _ hL h hh =>
    obtain ⟨route, f, hctx, -, -⟩ := (hL.of.caught h hh).inside
    exact ⟨route, by rw [hctx]; rfl⟩
  | final _ hL =>
    obtain ⟨route, f, hctx, -, -⟩ := hL.of.final.inside
    exact ⟨route, by rw [hctx]; rfl⟩

/-- What code in the block throws goes through the finalizers in between. -/
theorem forwards (h : b.Nests d finalizers) (hb : b.ctx.IsRouted) (hp : p.Holds b.before b.after)
    (hplaces : p.Places b.ctx) (hunique : p.LabelsUnique) :
    p.Places d.ctx ∧ p.Forwards b.span d.ctx b.ctx finalizers := by
  induction h with
  | self => exact ⟨hplaces, fun v σ harrives => ⟨σ, .refl σ, harrives⟩⟩
  | plain he hd hinner ih =>
    have hregion := Frame.innermostRegion?_append hinner
    refine ⟨fun route hroute => ih.1 route ?_,
      (Program.Forwards.of_region hd.leafName (hd.frames ▸ hregion _) (he.isRouted hb)).trans ih.2⟩
    rw [hd.frames] at hroute
    rcases List.mem_append.1 hroute with hmem | hmem
    · cases hinner _ hmem
    · exact hmem
  | tried he hL ih =>
    have hroutes := (hL.runs p (hp.between he.grows.1 he.grows.2) ih.1 hunique).1
    exact ⟨hroutes.places_tried, ((hroutes.tried rfl).mono he.span_subset).trans ih.2⟩
  | caught he hL h hh ih =>
    have hroutes := (hL.runs p (hp.between he.grows.1 he.grows.2) ih.1 hunique).1
    exact ⟨hroutes.places_caught h hh, ((hroutes.caught h hh).mono he.span_subset).trans ih.2⟩
  | final he hL ih =>
    have hroutes := (hL.runs p (hp.between he.grows.1 he.grows.2) ih.1 hunique).1
    exact ⟨hroutes.places_final, (hroutes.final.mono he.span_subset).trans ih.2⟩

end Site.Nests

/-! ### Throws -/

/-- The exception is boxed first, and its code then leads it through the finalizers to where the
context leads it. -/
def Site.Throws (d : Site (throwValue t)) (p : Program V W) (S : Set Nat) (ctx : Context)
    (finalizers : List ((m : Lower Unit) × Site m)) : Prop :=
  ∃ u s₁, asObject t d.ctx d.before = .ok u s₁ ∧ ∀ σ : Machine V W, σ.pc = s₁.code.size →
    p.Unwinds S ctx (σ.temps u) finalizers σ

/-- In a protected region, a throw is left to the machine. -/
theorem throwValue_raises (d : Site (throwValue t)) {region : Frame}
    (hregion : Frame.innermostRegion? d.ctx.frames = some region) (hnative : region.isNative) :
    ∃ u s₁, asObject t d.ctx d.before = .ok u s₁ ∧ d.after.code = s₁.code.push (.raise u) := by
  obtain ⟨u, s₁, h₁, h₂⟩ := bind_ok d.run
  replace h₂ := read_ok h₂
  rw [hregion] at h₂
  refine ⟨u, s₁, h₁, ?_⟩
  cases region with
  | guarded | finallyHandler =>
    rw [(emit_pushes h₂).code]
  | _ => cases hnative

/-- A throw in the block, outside its protected regions, comes to where the block leads
exceptions. -/
theorem Site.Nests.throws {b : Site m'} {d : Site (throwValue t)}
    {finalizers : List ((m : Lower Unit) × Site m)} (h : b.Nests d finalizers) (hb : b.ctx.IsRouted)
    (hp : p.Holds b.before b.after) (hplaces : p.Places b.ctx) (hunique : p.LabelsUnique) :
    d.Throws p b.span b.ctx finalizers := by
  obtain ⟨hplaces', hforwards⟩ := h.forwards hb hp hplaces hunique
  obtain ⟨u, s₁, h₁, hthrown⟩ :=
    throwValue_ends d (hp.between h.grows.1 h.grows.2) hplaces' {}
  refine ⟨u, s₁, h₁, fun σ hσ => ?_⟩
  obtain ⟨τ, hτ, -, harrives⟩ := hthrown σ hσ
  exact (hforwards _ τ harrives).prepend (hτ.mono h.span_subset)

/-! ### Statements with a handler -/

variable {caught : Temp → Lower Unit}
variable {inner : List Frame} {stmts : List Stmt} {clause : Option CatchClause}
  {name : Option String} {stmt : Stmt}

/-- The region of the block of a routed statement with a handler, and the runs that lower the block
and the handler. -/
structure CatchSites (block : Lower Unit) (caught : Temp → Lower Unit) where
  route : Route
  tried : Site block
  caught : HandlerSite caught

/-- These are the parts of the statement, one behind the other. -/
structure CatchSites.Of (L : CatchSites block caught) (a : Site m) (fields : PendingFields) :
    Prop where
  ctx : L.tried.ctx = { a.ctx with frames := .routed L.route :: a.ctx.frames }
  fields : L.route.fields = fields
  sound : L.tried.Sound
  sound_caught : L.caught.site.Sound
  before : a.before.Grows L.tried.before
  grows : L.tried.before.Grows L.tried.after
  order : L.tried.after.Grows L.caught.site.before
  grows_caught : L.caught.site.before.Grows L.caught.site.after
  after : L.caught.site.after.Grows a.after

theorem CatchSites.Of.isRouted {L : CatchSites block caught} {a : Site m} (h : L.Of a fields) :
    L.tried.ctx.IsRouted :=
  ⟨L.route, by rw [h.ctx]; rfl⟩

/-- From the throw label of the region, with an exception in its field, the machine goes on to the
handler with the exception. -/
structure CatchSites.Catches (L : CatchSites block caught) (a : Site m) (p : Program V W) :
    Prop where
  places : p.Places L.tried.ctx
  arrives : ∀ v σ, p.Arrives L.tried.ctx {} (.throw v) σ ↔
    p.code[σ.pc]? = some (.label L.route.throwLabel) ∧
      σ.fields ⟨a.ctx.leafName, L.route.fields.exception⟩ = v
  handled : ∀ v σ, p.Arrives L.tried.ctx {} (.throw v) σ →
    ∃ τ, p.RunOn a.span σ τ ∧ τ.pc = L.caught.site.before.code.size ∧
      τ.temps L.caught.exception = v

theorem routedCatch_ok (h : routedCatch fields block caught ctx s = .ok () s') :
    ∃ catchLabel after s₀, (do
        clearState fields.exception
        routed fields catchLabel none block
        branch after
        place catchLabel
        let exception ← takeException fields
        caught exception
        place after) ctx s₀ = .ok () s' ∧ s.SameCode s₀ := by
  rw [routedCatch, routedHandler_eq] at h
  simp only [bind_assoc] at h
  exact ⟨_, _, _, h, .of_eq rfl rfl rfl rfl⟩

/-- The parts of a routed statement with a handler and no finalizer. -/
theorem routedCatch_parts [Growing block] [∀ t, Growing (caught t)] {k : Nat} (a : Site m)
    (ha : a.Sound) {start : Session} (hstart : a.before.SameCode start)
    (hrun : routedCatch (.numbered k) block caught a.ctx start = .ok () a.after)
    (hk : k < start.routedCount) :
    ∃ L : CatchSites block caught, L.Of a (.numbered k) ∧ L.caught.site.ctx = a.ctx ∧
      ∀ {V W : Type} (p : Program V W), p.Holds a.before a.after → p.Places a.ctx →
        p.LabelsUnique → L.Catches a p := by
  obtain ⟨catchLabel, after, s₀, hrun, e⟩ := routedCatch_ok hrun
  replace hk := hk.trans_le e.routed
  replace e := hstart.trans e
  obtain ⟨_, s₁, -, h⟩ := (Stretch.whole hrun).split
  obtain ⟨_, s₃, hguarded, h⟩ := h.split
  obtain ⟨throwState, s₂, hpart, hsame₂, hresumes⟩ := routed_ok hguarded.run
  obtain ⟨_, s₄, hleave, h⟩ := h.split
  obtain ⟨_, s₅, hplace, h⟩ := h.split
  obtain ⟨exception, s₆, htake, h⟩ := h.split
  obtain ⟨_, s₇, hhandler, hafter⟩ := h.split
  have g₂ := hguarded.before.trans hsame₂.grows
  have l₂ := e.grows.trans g₂
  let route : Route := ⟨catchLabel, throwState, .numbered k, none⟩
  refine ⟨⟨route, ⟨_, s₂, s₃, hpart⟩, exception, ⟨_, s₆, s₇, hhandler.run⟩⟩,
    ⟨rfl, rfl, ha.inside l₂ (hk.trans_le g₂.routed) rfl hresumes,
      ha.mono (e.grows.trans hhandler.before), l₂, Growing.grows hpart,
      hleave.grows.trans (hplace.grows.trans htake.grows), hhandler.grows, hafter.grows⟩, rfl, ?_⟩
  intro V W p hp hplaces hunique
  have hspan := Set.Ico_subset_Ico_left (b := a.after.code.size) e.grows.size_le
  replace hp := hp.between e.grows (.refl _)
  refine ⟨hplaces.cons ⟨_, hplace.label hp⟩ (fun f hf => by cases hf), fun _ _ => Iff.rfl, ?_⟩
  rintro v σ ⟨hlabel, rfl⟩
  have hnext := hplace.place hp (hunique _ _ _ hlabel (hplace.label hp))
  obtain ⟨τ, hτ, -, htemp, -⟩ :=
    takeException_encodes htake (PendingFields.names_numbered_nodup k) hp hnext.2
  exact ⟨τ, (hnext.trans hτ).1.mono hspan, hτ.2, htemp⟩

/-- A routed statement with a handler and a finalizer has the same parts, apart from the
finalizer. -/
theorem FinallySites.RoutedParts.catches {L : FinallySites block (some caught) finalizer}
    {a : Site m} (hL : L.RoutedParts a fields) :
    ∃ L' : CatchSites block caught, L'.Of a fields ∧
      ∀ {V W : Type} (p : Program V W), p.Holds a.before a.after → p.Places a.ctx →
        p.LabelsUnique → L'.Catches a p := by
  obtain ⟨route, f, hctx, hfields, -⟩ := hL.of.tried.inside
  have hcaught := hL.of.caught caught rfl
  refine ⟨⟨route, L.tried, L.caught caught rfl⟩, ⟨hctx, hfields, hL.of.tried.sound, hcaught.sound,
    hL.of.tried.before, hL.of.tried.grows, (hL.of.order_caught caught rfl).1, hcaught.grows,
    hcaught.after⟩, ?_⟩
  intro V W p hp hplaces hunique
  have hroutes := (hL.runs p hp hplaces hunique).1
  refine ⟨hroutes.places_tried, fun v σ => ?_, hroutes.handled caught rfl⟩
  dsimp only
  rw [hctx]
  exact Iff.rfl

end Lower

end ScriptLowering
