import ScriptLowering.Proofs.Labels
import ScriptLowering.Proofs.Routing.Catch

/-!
# The `try` statements of a function

A run that is part of the lowering of a resumable function, outside its protected regions, lies in
the function: its code is in the body, and what is around it is placed there. The statements of the
function do, and so does what is lowered inside of such a run. There the `try` statements with a
finalizer behave as they should, whatever the machine does in their parts.

The parts of such a statement complete abruptly in three ways. A throw, a return or a rejected
`await` in a part, outside further regions, takes the machine to where the part leads what completes
in that way, and a statement in a part that completes abruptly completes the part as well. In a
protected region inside the part, a throw is left to the machine.

## Main definitions

* `Lower.Site.LiesIn`: the run is part of the lowering of a function;
* `Program.Leads`: abrupt completions inside a part complete the part.

## Main results

* `Function.exists_statement`: the statements of a function are lowered in the function;
* `Function.lower_runsTry`: what the `try` statements of a function do;
* `Lower.lowerStmt_catches`: what a routed statement catches.
-/

namespace ScriptLowering

open Lower

variable {V W : Type} {m m' block finalizer : Lower Unit} {handler : Option (Temp → Lower Unit)}
  {body : Body} {f : Function} {inner : List Frame} {fields : PendingFields} {name : Option String}
  {stmt : Stmt} {tree : ScopeTree} {registry : Registry} {options : Options}

/-- The program is that of the body. -/
structure Program.Runs (p : Program V W) (body : Body) : Prop where
  code : p.code = body.code
  points : p.points = body.resumePoints

/-- Labels are placed once in the body. -/
def Body.LabelsUnique (body : Body) : Prop :=
  ∀ ⦃V W : Type⦄ ⦃p : Program V W⦄, p.Runs body → p.LabelsUnique

/-! ### Runs in a function -/

namespace Lower.Site

/-- The run is a part of the lowering of the function, outside its protected regions, and what was
emitted is in the body. -/
structure LiesIn (a : Site m) (f : Function) (body : Body) : Prop where
  function : a.ctx.function = f
  sound : a.Sound
  holds : ∀ {V W : Type} {p : Program V W}, p.Runs body → p.Holds a.before a.after
  places : ∀ {V W : Type} {p : Program V W}, p.Runs body → p.Places a.ctx

theorem Within.mem_routed {d : Site m} {b : Site m'} (h : d.Within b inner)
    (hinner : ∀ f ∈ inner, f.isRegion = false) {route : Route}
    (hroute : .routed route ∈ d.ctx.frames) :
    .routed route ∈ b.ctx.frames := by
  rw [h.frames] at hroute
  rcases List.mem_append.1 hroute with hmem | hmem
  · cases hinner _ hmem
  · exact hmem

namespace LiesIn

variable {a : Site m} {b : Site m'}

theorem within {d : Site m'} (h : a.LiesIn f body) (hd : d.Within a inner)
    (hinner : ∀ f ∈ inner, f.isRegion = false) : d.LiesIn f body := by
  have hfunction : d.ctx.function = a.ctx.function := by rw [hd.ctx]
  have hsound := Context.Routable.mono h.sound hd.before
  refine ⟨hfunction.trans h.function, ⟨fun frame hframe => ?_, fun route hroute =>
    hsound.numbered route (hd.mem_routed hinner hroute), fun hasync route hroute =>
    hsound.resumes (hfunction ▸ hasync) route (hd.mem_routed hinner hroute)⟩,
    fun hp => (h.holds hp).between hd.before hd.after,
    fun hp route hroute => h.places hp route (hd.mem_routed hinner hroute)⟩
  rw [hd.frames] at hframe
  rcases List.mem_append.1 hframe with hmem | hmem
  · have := hinner frame hmem
    cases frame <;> first | rfl | cases this
  · exact h.sound.plain frame hmem

theorem resumable (h : a.LiesIn f body) (hf : f.isResumable = true) : a.ctx.isResumable = true := by
  rw [Context.isResumable, h.function, hf]

end LiesIn

end Lower.Site

/-- The parts of a routed statement with a finalizer. -/
inductive Lower.FinallySites.Part (L : FinallySites block handler finalizer) :
    {m : Lower Unit} → Site m → Prop
  | tried : L.Part L.tried
  | caught (h : Temp → Lower Unit) (hh : handler = some h) : L.Part (L.caught h hh).site
  | final : L.Part L.final

namespace Lower.FinallySites

variable {L : FinallySites block handler finalizer} {a : Site m} {B : Site m'}

theorem Of.part (h : L.Of a fields) (hB : L.Part B) : B.PartOf a fields := by
  cases hB with
  | tried => exact h.tried
  | caught m hm => exact h.caught m hm
  | final => exact h.final

theorem Part.liesIn (hB : L.Part B) (hL : L.RoutedParts a fields) (ha : a.LiesIn f body)
    (hunique : body.LabelsUnique) : B.LiesIn f body := by
  have hpart := hL.of.part hB
  obtain ⟨route, g, hctx, -⟩ := hpart.inside
  refine ⟨by rw [hctx]; exact ha.function, hpart.sound,
    fun hp => (ha.holds hp).between hpart.before hpart.after, fun {_ _ p} hp => ?_⟩
  have hroutes := (hL.runs p (ha.holds hp) (ha.places hp) (hunique hp)).1
  cases hB with
  | tried => exact hroutes.places_tried
  | caught m hm => exact hroutes.places_caught m hm
  | final => exact hroutes.places_final

end Lower.FinallySites

/-- The block of a routed statement without a finalizer is lowered in the function. -/
theorem Lower.CatchSites.Of.liesIn {h : Temp → Lower Unit} {L : CatchSites block h} {a : Site m}
    (hL : L.Of a fields) (ha : a.LiesIn f body)
    (hplaces : ∀ {V W : Type} (p : Program V W), p.Runs body → p.Places L.tried.ctx) :
    L.tried.LiesIn f body :=
  ⟨by rw [hL.ctx]; exact ha.function, hL.sound, fun hp => (ha.holds hp).between hL.before
    (hL.order.trans (hL.grows_caught.trans hL.after)), fun hp => hplaces _ hp⟩

/-! ### Statements of a function -/

theorem getElem?_fillDispatch (points : List ResumePoint) (code : List Instr) {n : Nat}
    (hn : 0 < n) : (fillDispatch points code)[n]? = code[n]? := by
  obtain ⟨n, rfl⟩ := Nat.exists_eq_succ_of_ne_zero hn.ne'
  unfold fillDispatch
  split <;> simp

instance (params : List Param) (index : Nat) : Growing (parameters index params) :=
  .of_relates [] (parameters_relates (Simulation.resolves_of_none rfl rfl params))

/-- The entry of a resumable function starts with the dispatch. -/
theorem Lower.resumableEntry_size {params : List Param} {ctx : Context} {s s' : Session}
    (h : resumableEntry params ctx s = .ok () s') : 0 < s'.code.size := by
  obtain ⟨start, s₁, -, h⟩ := bind_ok h
  obtain ⟨_, s₂, h₂, h⟩ := bind_ok h
  have hsize := (emit_pushes h₂).size
  have hgrows := (Growing.grows h).size_le
  omega

theorem Function.lower_labelsUnique (h : (f.lower tree registry options).result = .ok body) :
    body.LabelsUnique := by
  obtain ⟨ctx, s, o, hfin, rfl⟩ := Function.exists_finished h
  intro V W p hp l m n hm hn
  rw [hp.code] at hm hn
  exact eq_of_placed hfin.nodup (hfin.placed_at hm) (hfin.placed_at hn)

/-- Every statement of the body is lowered in the function. -/
theorem Function.exists_statement (h : (f.lower tree registry options).result = .ok body)
    (hf : f.isResumable = true) (hmem : stmt ∈ f.body) :
    ∃ d : Site (lowerStmt stmt none), d.LiesIn f body := by
  obtain ⟨ctx, s, u, hctx, rfl, hrun, rfl⟩ := Function.exists_session h
  have hframes := (ready_outermost (U := ∅) hctx).2.1
  rw [wholeFunction_run] at hrun
  obtain ⟨_, s₁, hcode, hfinish⟩ := bind_ok hrun
  obtain ⟨_, s₀, hentry, hrest⟩ := bind_ok hcode
  rw [entry, if_pos hf] at hentry
  have hsize := resumableEntry_size hentry
  have hsame : s.code = s₁.code ∧ s.resumePoints = s₁.resumePoints := by
    cases hfinish
    exact ⟨rfl, rfl⟩
  have hexit : Growing placeSharedExit := .of_relates [] placeSharedExit_relates
  obtain ⟨_, s₂, hhoist, hrest⟩ := bind_ok hrest
  obtain ⟨_, s₃, hstmts, hrest⟩ := bind_ok hrest
  obtain ⟨d, hd⟩ := lowerStmts_within ⟨ctx, s₂, s₃, hstmts⟩ hmem
  have hbefore := (Growing.grows hhoist).trans hd.before
  have hafter := hd.after.trans (Growing.grows hrest)
  have hdframes : d.ctx.frames = [] := by rw [hd.ctx, hframes]; rfl
  have hnone : ∀ frame, frame ∉ d.ctx.frames := by simp [hdframes]
  refine ⟨d, by rw [hd.ctx], ⟨fun _ hmem => (hnone _ hmem).elim, fun _ hmem => (hnone _ hmem).elim,
    fun _ _ hmem => (hnone _ hmem).elim⟩, fun hp => .between ⟨?_, ?_⟩ hbefore hafter,
    fun _ _ hmem => (hnone _ hmem).elim⟩
  · intro n hn _
    rw [hp.code]
    unfold Session.toBody
    rw [if_pos hf, getElem?_fillDispatch _ _ (hsize.trans_le hn), hsame.1]
  · rw [hp.points, ← hsame.2]
    exact List.Subset.refl _

/-! ### Abrupt completions in a part -/

/-- The `await` at the end of the run can be rejected, and then the machine is where the part leads
an exception. Of the pending fields, the driver has written that of the exception only. -/
def Lower.Site.Rejects (d : Site m) (p : Program V W) (B : Site m') : Prop :=
  ∃ n value state l result r, n + 2 = d.after.code.size ∧
    p.code[n]? = some (.suspend .await value state l result (some r)) ∧
    ∀ (σ : Machine V W) reason temps world, σ.pc = n →
      ∃ τ, p.Step σ τ ∧ τ.temps = temps ∧ τ.world = world ∧
        (∀ f, f ∉ B.ctx.written (.throw reason) → τ.fields f = σ.fields f) ∧
        p.Arrives B.ctx B.after (.throw reason) τ

/-- What code in a part does to complete it abruptly, outside further regions. -/
structure Program.Leads (p : Program V W) (B : Site m) : Prop where
  throws : ∀ {t : Temp} {d : Site (throwValue t)} {inner : List Frame}, d.Within B inner →
    (∀ f ∈ inner, f.isRegion = false) → d.Ends p B.span B.ctx B.after .throw
  returns : ∀ {t : Temp} {d : Site (returnValue t)} {inner : List Frame}, d.Within B inner →
    (∀ f ∈ inner, f.isRegion = false) → d.Ends p B.span B.ctx B.after .ret
  rejects : ∀ {e : Expr} {d : Site (lowerStmt (.expr (.await e)) none)} {inner : List Frame},
    d.Within B inner → (∀ f ∈ inner, f.isRegion = false) → d.Rejects p B
  /-- Where a protected region is closer, a throw is left to the machine. -/
  raises : ∀ {t : Temp} {d : Site (throwValue t)} {inner : List Frame} {region : Frame},
    d.Within B inner → Frame.innermostRegion? inner = some region → region.isNative = true →
      ∃ u s₁, asObject t d.ctx d.before = .ok u s₁ ∧ d.after.code = s₁.code.push (.raise u)
  /-- A statement in the part that completes abruptly completes the part. -/
  completes : ∀ {m' : Lower Unit} {d : Site m'} {inner : List Frame}, d.Within B inner →
    (∀ f ∈ inner, f.isRegion = false) → ∀ σ c τ, c ≠ .normal → p.Completes d σ c τ →
      p.RunOn B.span σ τ ∧ p.Arrives B.ctx B.after c τ

namespace Lower.Site

variable {p : Program V W} {B : Site m} {d : Site m'} {outer : Context}

/-- In no further region, what completes abruptly leads to the same place and writes the same
fields. -/
theorem Within.arrives (hd : d.Within B inner) (hinner : ∀ f ∈ inner, f.isRegion = false)
    (hB : B.ctx.Inside outer fields) {c : Completion V} (hc : c ≠ .normal) :
    d.ctx.written c = B.ctx.written c ∧
      ∀ σ z z', p.Arrives d.ctx z c σ → p.Arrives B.ctx z' c σ := by
  obtain ⟨route, f, hctx, -, hf⟩ := hB
  have hregion : Frame.innermostRegion? d.ctx.frames = some (.routed route) := by
    rw [hd.frames, Frame.innermostRegion?_append hinner, hctx]
    rfl
  have hfinally : d.ctx.frames.findSome? Frame.finallyRoute? = some (route.fields, f) := by
    have hnone : inner.findSome? Frame.finallyRoute? = none := by
      rw [List.findSome?_eq_none_iff]
      intro frame hframe
      have := hinner frame hframe
      cases frame <;> first | rfl | cases this
    rw [hd.frames, List.findSome?_append, hnone, hctx]
    simp [Frame.finallyRoute?, hf]
  have hregion' : Frame.innermostRegion? B.ctx.frames = some (.routed route) := by
    rw [hctx]
    rfl
  have hfinally' : B.ctx.frames.findSome? Frame.finallyRoute? = some (route.fields, f) := by
    rw [hctx]
    simp [Frame.finallyRoute?, hf]
  cases c with
  | normal => exact absurd rfl hc
  | throw v =>
    simp only [Context.written, Program.Arrives, hregion, hregion', hd.leafName]
    exact ⟨trivial, fun _ _ _ h => h⟩
  | ret v =>
    simp only [Context.written, Program.Arrives, hfinally, hfinally', hd.leafName]
    exact ⟨trivial, fun _ _ _ h => h⟩

theorem Ends.within {t : Temp} {ends : Temp → Lower Unit} {d : Site (ends t)} {z : Session}
    {c : Datum V → Completion V} (h : d.Ends p d.span d.ctx z c) (hc : ∀ v, c v ≠ .normal)
    (hd : d.Within B inner) (hinner : ∀ f ∈ inner, f.isRegion = false)
    (hB : B.ctx.Inside outer fields) : d.Ends p B.span B.ctx B.after c := by
  obtain ⟨u, s₁, h₁, hends⟩ := h
  refine ⟨u, s₁, h₁, fun σ hσ => ?_⟩
  obtain ⟨τ, hτ, hsame, harrives⟩ := hends σ hσ
  obtain ⟨hwritten, harrives'⟩ := hd.arrives (p := p) hinner hB (hc (σ.temps u))
  exact ⟨τ, hτ.mono (Set.Ico_subset_Ico hd.before.size_le hd.after.size_le), hwritten ▸ hsame,
    harrives' _ _ _ harrives⟩

theorem suspend_code {ctx : Context} {s s' : Session} {t u : Temp}
    (h : suspend .await t ctx s = .ok u s') : ∃ v s₁ reject s₂ state l result,
      asObject t ctx s = .ok v s₁ ∧ rejectRoute? .await ctx s₁ = .ok reject s₂ ∧
      s'.code = (s₂.code.push (.suspend .await v state l result reject)).push (.label l) := by
  replace h := read_ok h
  split at h
  · cases h
  · obtain ⟨v, s₁, h₁, h⟩ := bind_ok h
    obtain ⟨reject, s₂, h₂, h⟩ := bind_ok h
    cases h
    exact ⟨v, s₁, reject, s₂, _, _, _, h₁, h₂, rfl⟩

/-- In a routed region, the reject state of an `await` leads to the throw label. -/
theorem await_route {e : Expr} (d : Site (lowerStmt (.expr (.await e)) none)) (hsound : d.Sound)
    {route : Route} (hregion : Frame.innermostRegion? d.ctx.frames = some (.routed route)) :
    ∃ n value state l result, ∃ q ∈ d.before.resumePoints.toList, d.before.code.size ≤ n ∧
      n + 2 = d.after.code.size ∧ q.label = route.throwLabel ∧
      d.after.code[n]? = some (.suspend .await value state l result
        (some ⟨q.state, ⟨d.ctx.leafName, route.fields.exception⟩⟩)) := by
  obtain ⟨t, s', hawait, hpure⟩ := bind_ok d.run
  rw [← (EStateM.Result.ok.inj hpure).2]
  replace hawait : await (lowerExpr e) d.ctx d.before = .ok t s' := hawait
  replace hawait := read_ok hawait
  split at hawait
  · cases hawait
  · rename_i hasync
    obtain ⟨q, hq, hstate, hlabel⟩ :=
      hsound.resumes (by simpa using hasync) route (List.mem_of_find?_eq_some hregion)
    obtain ⟨operand, s₁, h₁, hsuspend⟩ := bind_ok hawait
    obtain ⟨v, s₂, reject, s₃, state, l, result, h₂, h₃, hcode⟩ := suspend_code hsuspend
    obtain ⟨rfl, hsame⟩ : reject = some ⟨q.state, ⟨d.ctx.leafName, route.fields.exception⟩⟩ ∧
        s₃.code = s₂.code := by
      replace h₃ := read_ok h₃
      simp only [hregion, hstate] at h₃
      obtain ⟨field, s₄, h₄, h₃⟩ := bind_ok h₃
      obtain ⟨rfl, hsame, -⟩ := stateField_same h₄
      cases h₃
      exact ⟨rfl, hsame⟩
    have hsize := ((Growing.grows h₁).trans (Growing.grows h₂)).size_le
    refine ⟨s₂.code.size, v, state, l, result, q, hq, hsize, ?_, hlabel, ?_⟩
    · simp [hcode, hsame]
    · rw [hcode, hsame, Array.getElem?_push, if_neg (by simp), Array.getElem?_push_size]

/-- Where a routed region is around, a rejected `await` comes to its throw label with the reason. -/
theorem rejects {e : Expr} {d : Site (lowerStmt (.expr (.await e)) none)} (hsound : d.Sound)
    (hp : p.Holds d.before d.after) (hplaces : p.Places d.ctx) (hd : d.Within B inner)
    (hinner : ∀ f ∈ inner, f.isRegion = false)
    (hB : B.ctx.Inside outer fields) : d.Rejects p B := by
  obtain ⟨route, f, hctx, -, -⟩ := id hB
  have hregion : Frame.innermostRegion? d.ctx.frames = some (.routed route) := by
    rw [hd.frames, Frame.innermostRegion?_append hinner, hctx]
    rfl
  obtain ⟨n, value, state, l, result, q, hq, hn, hsize, hlabel, hcode⟩ :=
    await_route d hsound hregion
  obtain ⟨⟨k, hk⟩, -⟩ := hplaces route (List.mem_of_find?_eq_some hregion)
  have hcode' := hp.getElem? hn hcode rfl
  refine ⟨n, value, state, l, result, _, hsize, hcode', fun σ reason temps world hσ => ?_⟩
  obtain ⟨hwritten, harrives⟩ := hd.arrives (p := p) (c := .throw reason) hinner hB nofun
  have hstep := Program.Step.rejected (p := p) (σ := σ) reason temps world (hσ ▸ hcode')
    (hp.points ((Growing.grows d.run).points.subset hq)) rfl (hlabel ▸ hk)
  refine ⟨_, hstep, rfl, rfl, fun g hg => ?_, harrives _ {} _ ?_⟩
  · rw [← hwritten] at hg
    simp only [Context.written, hregion, Set.mem_singleton_iff] at hg
    exact Function.update_of_ne hg _ _
  · simp only [Program.Arrives, hregion]
    exact ⟨hk, Function.update_self ..⟩

end Lower.Site

/-- What throws, returns or awaits in a part of a routed statement completes the part. -/
theorem Lower.Site.LiesIn.leads {B : Site m} {outer : Context} {p : Program V W}
    (h : B.LiesIn f body) (hp : p.Runs body) (hB : B.ctx.Inside outer fields) : p.Leads B where
  throws hd hinner :=
    have hin := h.within hd hinner
    (throwValue_ends _ (hin.holds hp) (hin.places hp) {}).within nofun hd hinner hB
  returns hd hinner :=
    have hin := h.within hd hinner
    (returnValue_ends _ hin.sound (hin.holds hp) (hin.places hp) {}).within nofun hd hinner hB
  rejects hd hinner :=
    have hin := h.within hd hinner
    rejects hin.sound (hin.holds hp) (hin.places hp) hd hinner hB
  raises hd hregion hnative := by
    refine throwValue_raises _ ?_ hnative
    rw [hd.frames, Frame.innermostRegion?, List.find?_append]
    exact (congrArg (Option.or · _) hregion).trans Option.some_or
  completes hd hinner _ _ _ hc hdone :=
    ⟨hdone.run.mono (Set.Ico_subset_Ico hd.before.size_le hd.after.size_le),
      (hd.arrives hinner hB hc).2 _ _ _ hdone.arrives⟩

/-- The code of the run behaves as the statement. What throws, returns or awaits in its parts
outside further regions completes them abruptly, and what throws in a protected region is left to
the machine. The parts lie in the function themselves. -/
def Body.RunsTry (body : Body) (f : Function) {stmts final : List Stmt}
    {clause : Option CatchClause}
    (a : Site (lowerStmt (.tryCatch stmts clause (some final)) name)) : Prop :=
  ∃ L : FinallySites (lowerBody stmts) (clause.map lowerCatch) (lowerBody final),
    L.Of a (.numbered a.before.routedCount) ∧
    (∀ {m : Lower Unit} {B : Site m}, L.Part B → B.LiesIn f body) ∧
    ∀ {V W : Type} (p : Program V W), p.Runs body →
      (∀ σ, σ.pc = a.before.code.size →
        p.RunsTry a L ((PendingFields.numbered a.before.routedCount).refs a.ctx.leafName) σ) ∧
      ∀ {m : Lower Unit} {B : Site m}, L.Part B → p.Leads B

/-- The statements of a resumable function that is lowered lie in the function, and so does what is
inside of them, outside protected regions of the machine, and the parts of a routed statement. Every
`try` statement there that suspends and has a finalizer does what its parts and their completions
ask for. -/
theorem Function.lower_runsTry (h : (f.lower tree registry options).result = .ok body)
    (hf : f.isResumable = true) :
    (∀ stmt ∈ f.body, ∃ a : Site (lowerStmt stmt none), a.LiesIn f body) ∧
    (∀ {m m' : Lower Unit} {a : Site m} {d : Site m'} {inner : List Frame}, a.LiesIn f body →
      d.Within a inner → (∀ frame ∈ inner, frame.isRegion = false) → d.LiesIn f body) ∧
    (∀ {stmts : List Stmt} {clause : CatchClause} {name : Option String}
      (a : Site (lowerStmt (.tryCatch stmts (some clause) none) name)), a.LiesIn f body →
      Stmt.suspends (.tryCatch stmts (some clause) none) = true →
      ∃ L : CatchSites (lowerBody stmts) (lowerCatch clause),
        L.Of a (.numbered a.before.routedCount) ∧
        L.tried.LiesIn f body ∧ L.caught.site.LiesIn f body) ∧
    ∀ {stmts final : List Stmt} {clause : Option CatchClause} {name : Option String}
      (a : Site (lowerStmt (.tryCatch stmts clause (some final)) name)), a.LiesIn f body →
      Stmt.suspends (.tryCatch stmts clause (some final)) = true → body.RunsTry f a := by
  have hunique := Function.lower_labelsUnique h
  refine ⟨fun stmt hstmt => Function.exists_statement h hf hstmt, fun ha hd => ha.within hd,
    fun a ha hsuspends => ?_, fun a ha hsuspends => ?_⟩
  · obtain ⟨start, hstart, hcount, -, hrun⟩ :=
      routedTry_opens (lowerStmt_routedTry a (ha.resumable hf) hsuspends)
    obtain ⟨L, hof, hctx, hcatches⟩ := routedCatch_parts a ha.sound hstart (hrun _ rfl rfl) hcount
    refine ⟨L, hof, hof.liesIn ha fun p hp => ?_, hctx ▸ ha.function, hof.sound_caught,
      fun hp => ?_,
      fun hp => hctx ▸ ha.places hp⟩
    · exact (hcatches p (ha.holds hp) (ha.places hp) (hunique hp)).places
    · exact (ha.holds hp).between (hof.before.trans (hof.grows.trans hof.order)) hof.after
  obtain ⟨L, hL⟩ := lowerStmt_routedParts a (ha.resumable hf) hsuspends ha.sound
  have hparts : ∀ {m : Lower Unit} {B : Site m}, L.Part B → B.LiesIn f body := fun hB =>
    hB.liesIn hL ha hunique
  refine ⟨L, hL.of, hparts, fun p hp => ⟨?_, fun hB => ?_⟩⟩
  · exact (hL.runs p (ha.holds hp) (ha.places hp) (hunique hp)).2
  · exact (hparts hB).leads hp (hL.of.part hB).inside

/-- `try { await 1; return 2; } catch { throw 3; } finally { await 1; return 2; }`. -/
def guardedAwait : Stmt :=
  .tryCatch [.expr (.await (.number (.ofNat 1))), .ret (some (.number (.ofNat 2)))]
    (some (.clause none none [.raise (.number (.ofNat 3))]))
    (some [.expr (.await (.number (.ofNat 1))), .ret (some (.number (.ofNat 2)))])

/-- An async function with the given statement. -/
def asyncFunction (stmt : Stmt) : Function where
  name := "f"
  kind := .function
  scope := ScopeTree.global
  body := [stmt]
  isAsync := true

/-- The inner one of two nested statements. -/
theorem Function.lower_runsTry_guardedAwait :
    let f := asyncFunction (.tryCatch [guardedAwait] none (some []))
    ∃ a : Site (lowerStmt guardedAwait none), a.LiesIn f f.loweredAlone ∧
    f.loweredAlone.RunsTry f a := by
  intro f
  have h : (f.lower (.ofModule "m") {} {}).result = .ok f.loweredAlone := by decide +kernel
  obtain ⟨hstmt, hwithin, -, hruns⟩ := Function.lower_runsTry h rfl
  obtain ⟨a, ha⟩ := hstmt _ (.head _)
  obtain ⟨L, -, hparts, -⟩ := hruns a ha (by decide)
  obtain ⟨d, hd⟩ := lowerBody_within L.tried (.head _)
  have hinner := hwithin (hparts .tried) hd nofun
  exact ⟨d, hinner, hruns d hinner (by decide)⟩

/-- `try { await 1; try { throw 2; } finally { } } finally { 3; }`. -/
def throwPastFinally : Stmt :=
  .tryCatch [.expr (.await (.number (.ofNat 1))),
    .tryCatch [.raise (.number (.ofNat 2))] none (some [])] none (some [.expr (.number (.ofNat 3))])

/-- The exception is left to the machine, which has the handler of the inner finalizer only. Nothing
but a rejected `await` leads an exception to the outer finalizer. -/
theorem Function.lower_bypassesFinally :
    ((asyncFunction throwPastFinally).lower (.ofModule "m") {} {}).result
      = .ok (asyncFunction throwPastFinally).loweredAlone ∧
    let body := (asyncFunction throwPastFinally).loweredAlone
    body.code[22]? = some (.raise ⟨10⟩) ∧
      body.regions = [⟨.finallyHandler, ⟨11⟩, ⟨12⟩, ⟨12⟩, ⟨13⟩, none⟩] ∧
      ⟨1, ⟨3⟩, none, .reject⟩ ∈ body.resumePoints ∧
      body.code[28]? = some (.branch ⟨5⟩) ∧ body.code[29]? = some (.label ⟨3⟩) ∧
      ∀ i ∈ body.code, ⟨3⟩ ∈ i.labels → i = .label ⟨3⟩ := by
  decide +kernel

/-! ### What is caught -/

namespace Lower

/-- In a resumable function, a `try` statement that suspends and has a `catch` clause catches what
its block throws outside protected regions of the machine. Every throw of the block that is left to
the machine is inside such a region. -/
theorem lowerStmt_catches {block : List Stmt} {clause : CatchClause}
    {finalizer : Option (List Stmt)}
    {name : Option String} (a : Site (lowerStmt (.tryCatch block (some clause) finalizer) name))
    (hresumable : a.ctx.isResumable = true)
    (hsuspends : Stmt.suspends (.tryCatch block (some clause) finalizer) = true) (ha : a.Sound) :
    ∃ L : CatchSites (lowerBody block) (lowerCatch clause),
      L.Of a (.numbered a.before.routedCount) ∧
      L.tried.before.Sheltered L.tried.after ∧
      ∀ {V W : Type} (p : Program V W), p.Holds a.before a.after → p.Places a.ctx →
        p.LabelsUnique →
          L.Catches a p ∧
          ∀ {t : Temp} (d : Site (throwValue t)), (∀ finalizers, L.tried.Nests d finalizers →
              d.Throws p L.tried.span L.tried.ctx finalizers) ∧
            ∀ region, Frame.innermostRegion? d.ctx.frames = some region → region.isNative = true →
              ∃ u s₁, asObject t d.ctx d.before = .ok u s₁ ∧
                d.after.code = s₁.code.push (.raise u) := by
  obtain ⟨L, hof, hcatches⟩ : ∃ L : CatchSites (lowerBody block) (lowerCatch clause),
      L.Of a (.numbered a.before.routedCount) ∧
      ∀ {V W : Type} (p : Program V W), p.Holds a.before a.after → p.Places a.ctx →
        p.LabelsUnique → L.Catches a p := by
    cases finalizer with
    | some body =>
      obtain ⟨L, hL⟩ := lowerStmt_routedParts a hresumable hsuspends ha
      exact hL.catches
    | none =>
      obtain ⟨start, hstart, hcount, -, hrun⟩ :=
        routedTry_opens (lowerStmt_routedTry a hresumable hsuspends)
      obtain ⟨L, hof, -, hcatches⟩ := routedCatch_parts a ha hstart (hrun _ rfl rfl) hcount
      exact ⟨L, hof, hcatches⟩
  refine ⟨L, hof, block_sheltered L.tried.run hof.isRouted, fun p hp hplaces hunique => ?_⟩
  have hcaught := hcatches p hp hplaces hunique
  refine ⟨hcaught, fun d => ⟨fun finalizers hnests => ?_, fun region => throwValue_raises d⟩⟩
  have hafter := hof.order.trans (hof.grows_caught.trans hof.after)
  exact hnests.throws hof.isRouted (hp.between hof.before hafter) hcaught.places hunique

/-- A `throw` statement in the block is a throw in the block. -/
theorem Site.Nests.raise {b : Site m'} {value : Expr} {e : Site (lowerStmt (.raise value) name)}
    {finalizers : List ((m : Lower Unit) × Site m)} (h : b.Nests e finalizers) :
    ∃ (t : Temp) (d : Site (throwValue t)), b.Nests d finalizers := by
  obtain ⟨t, s₁, h₁, h₂⟩ := bind_ok e.run
  exact ⟨t, ⟨e.ctx, s₁, e.after, h₂⟩, h.part rfl (Growing.grows h₁) (.refl _)⟩

/-- Each statement of a block is in the block. -/
theorem Site.Nests.statement {b : Site m'} {stmts : List Stmt} {d : Site (lowerBody stmts)}
    {finalizers : List ((m : Lower Unit) × Site m)} (h : b.Nests d finalizers)
    (hd : d.LiesIn f body) (hmem : stmt ∈ stmts) :
    ∃ e : Site (lowerStmt stmt none), b.Nests e finalizers ∧ e.LiesIn f body := by
  obtain ⟨e, he⟩ := lowerBody_within d hmem
  exact ⟨e, h.plain he nofun, hd.within he nofun⟩

/-- `try { throw await 1; } finally { }`. -/
def awaitAndThrow : Stmt :=
  .tryCatch [.raise (.await (.number (.ofNat 1)))] none (some [])

/-- `try { try { throw await 1; } finally { } } catch { }`. -/
def caughtThrow : Stmt :=
  .tryCatch [awaitAndThrow] (some (.clause none none [])) none

/-- The exception of `caughtThrow` goes through the inner finalizer to the outer handler. -/
theorem lowerStmt_catches_awaitAndThrow :
    ∃ (a : Site (lowerStmt caughtThrow none))
      (L : CatchSites (lowerBody [awaitAndThrow]) (lowerCatch (.clause none none []))) (t : Temp)
      (d : Site (throwValue t)) (F : Site (lowerBody [])),
      a.LiesIn (asyncFunction caughtThrow) (asyncFunction caughtThrow).loweredAlone ∧
      L.Of a (.numbered a.before.routedCount) ∧ L.tried.Nests d [⟨_, F⟩] ∧
      ∀ {V W : Type} (p : Program V W), p.Runs (asyncFunction caughtThrow).loweredAlone →
        L.Catches a p ∧ d.Throws p L.tried.span L.tried.ctx [⟨_, F⟩] := by
  have h : ((asyncFunction caughtThrow).lower (.ofModule "m") {} {}).result =
      .ok (asyncFunction caughtThrow).loweredAlone := by decide +kernel
  have hunique := Function.lower_labelsUnique h
  obtain ⟨a, ha⟩ := Function.exists_statement h rfl (.head _)
  obtain ⟨L, hof, -, hcatches⟩ := lowerStmt_catches a (ha.resumable rfl) (by decide) ha.sound
  have htried := hof.liesIn ha fun p hp =>
    (hcatches p (ha.holds hp) (ha.places hp) (hunique hp)).1.places
  obtain ⟨e, he, hlies⟩ :=
    (Site.Nests.self (b := L.tried)).statement htried (List.mem_singleton_self awaitAndThrow)
  obtain ⟨L', hL'⟩ := lowerStmt_routedParts e (hlies.resumable rfl) (by decide) hlies.sound
  obtain ⟨e', he', -⟩ :=
    (he.tried hL').statement (FinallySites.Part.tried.liesIn hL' hlies hunique) (.head _)
  obtain ⟨t, d, hd⟩ := he'.raise
  refine ⟨a, L, t, d, L'.final, ha, hof, hd, fun p hp => ?_⟩
  obtain ⟨hcaught, hthrows⟩ := hcatches p (ha.holds hp) (ha.places hp) (hunique hp)
  exact ⟨hcaught, (hthrows d).1 _ hd⟩

end Lower

/-- `try { await 1; try { throw 2; } finally { } } catch { }`. -/
def throwInFinally : Stmt :=
  .tryCatch [.expr (.await (.number (.ofNat 1))),
    .tryCatch [.raise (.number (.ofNat 2))] none (some [])] (some (.clause none none [])) none

/-- The exception is left to the machine, which has handlers for finalizers only. Nothing but a
rejected `await` leads to the throw label of the routed statement. -/
theorem Function.lower_bypassesCatch :
    ((asyncFunction throwInFinally).lower (.ofModule "m") {} {}).result
      = .ok (asyncFunction throwInFinally).loweredAlone ∧
    let body := (asyncFunction throwInFinally).loweredAlone
    .raise ⟨7⟩ ∈ body.code ∧ (∀ r ∈ body.regions, r.kind = .finallyHandler) ∧
      ⟨1, ⟨2⟩, none, .reject⟩ ∈ body.resumePoints ∧
      body.code[22]? = some (.branch ⟨3⟩) ∧ body.code[23]? = some (.label ⟨2⟩) ∧
      ∀ i ∈ body.code, ⟨2⟩ ∈ i.labels → i = .label ⟨2⟩ := by
  decide +kernel

end ScriptLowering
