import ScriptLowering.Proofs.Routing.Glue

/-!
# The finally block and what follows it

The pending fields of a routed statement with a finalizer encode the completion of what it guards.
This module follows the machine from the finally block on: with a completion encoded, the finalizer
is executed, an abrupt completion of the finalizer takes the place of the one that was encoded, and
what is encoded in the end continues in the surroundings of the statement.
-/

namespace ScriptLowering

variable {V W : Type}
variable {ctx : Context} {m : Lower Unit} {s : Session} {own : Set FieldRef} {G : Set Nat}

/-- The fields stand for a completion. -/
def PendingFields.Encodes (fields : PendingFields) (leaf : String) (x : FieldRef → Datum V) :
    Completion V → Prop
  | .normal =>
    (x ⟨leaf, fields.hasException⟩).isTrue = false ∧ (x ⟨leaf, fields.hasReturn⟩).isTrue = false
  | .throw v => (x ⟨leaf, fields.hasException⟩).isTrue = true ∧ x ⟨leaf, fields.exception⟩ = v
  | .ret v =>
    (x ⟨leaf, fields.hasException⟩).isTrue = false ∧ (x ⟨leaf, fields.hasReturn⟩).isTrue = true ∧
      x ⟨leaf, fields.returnValue⟩ = v

namespace PendingFields

variable {fields : PendingFields} {leaf : String} {x y : FieldRef → Datum V} {c : Completion V}

theorem mem_refs {name : String} (h : name ∈ fields.names) :
    (⟨leaf, name⟩ : FieldRef) ∈ fields.refs leaf :=
  ⟨name, h, rfl⟩

theorem Encodes.congr (h : fields.Encodes leaf x c) (heq : ∀ f ∈ fields.refs leaf, y f = x f) :
    fields.Encodes leaf y c := by
  have hmem : ∀ name ∈ fields.names, y ⟨leaf, name⟩ = x ⟨leaf, name⟩ := fun name hname =>
    heq _ (mem_refs hname)
  simp only [names, List.forall_mem_cons] at hmem
  obtain ⟨hexception, hflag, hvalue, hreturn, -⟩ := hmem
  cases c with
  | normal => exact ⟨hflag ▸ h.1, hreturn ▸ h.2⟩
  | throw v => exact ⟨hflag ▸ h.1, hexception.trans h.2⟩
  | ret v => exact ⟨hflag ▸ h.1, hreturn ▸ h.2.1, hvalue.trans h.2.2⟩

end PendingFields

/-- The labels of the program are placed once. -/
def Program.LabelsUnique (p : Program V W) : Prop :=
  ∀ (l : Label) (m n : Nat), p.code[m]? = some (.label l) → p.code[n]? = some (.label l) → m = n

namespace Lower

variable {p : Program V W} {ctx : Context} {A Z s s' : Session} {fields : PendingFields}
variable {after checkReturn : Label} {name : String} {σ : Machine V W}

instance (fields : PendingFields) (thrown next : Label) : Growing (noteAt fields thrown next) := by
  unfold noteAt
  infer_instance

theorem noteAt_encodes {thrown next : Label}
    (h : Stretch A Z (noteAt fields thrown next) ctx s () s') (hp : p.Holds A Z)
    (hnames : fields.names.Nodup) {n : Nat} (hn : p.code[n]? = some (.label next))
    (hσ : σ.pc = s.code.size) :
    ∃ τ, p.Reaches (Set.Ico A.code.size Z.code.size) σ τ n ∧
      σ.SameBut (fields.refs ctx.leafName) τ ∧
      fields.Encodes ctx.leafName τ.fields
      (.throw (σ.fields ⟨ctx.leafName, fields.exception⟩)) := by
  obtain ⟨_, s₁, h₁, h⟩ := h.split
  obtain ⟨_, s₃, h₂, h₄⟩ := h.split
  obtain ⟨_, s₂, h₂, h₃⟩ := h₂.split
  have hplace := h₁.place hp hσ
  have hflag := h₂.setFlag hp hplace.2
  have hreturn := h₃.setFlag hp hflag.2
  have hbranch := h₄.branch hp hreturn.2 hn
  refine ⟨_, hplace.trans (hflag.trans (hreturn.trans hbranch)), ⟨rfl, fun f hf => ?_⟩, ?_⟩
  · simp [Machine.goto, Machine.next, Machine.put, Machine.set, Machine.store,
      PendingFields.ne_of_notMem hf]
  · simp only [PendingFields.names, List.nodup_cons, List.mem_cons, List.not_mem_nil, or_false,
      not_or] at hnames
    simp [PendingFields.Encodes, Machine.goto, Machine.next, Machine.put, Machine.set,
      Machine.store, hnames]

/-! ### Behind the finally block -/

instance (l : Label) (name : String) (target : Label) : Growing (testFlag l name target) := by
  unfold testFlag
  infer_instance

theorem testFlag_runs {l target : Label} (h : Stretch A Z (testFlag l name target) ctx s () s')
    (hp : p.Holds A Z) {n : Nat} (hn : p.code[n]? = some (.label target))
    (hσ : σ.pc = s.code.size) :
    ∃ τ, p.Reaches (Set.Ico A.code.size Z.code.size) σ τ
        (if (σ.fields ⟨ctx.leafName, name⟩).isTrue then s'.code.size else n) ∧
      τ.world = σ.world ∧ τ.fields = σ.fields := by
  obtain ⟨_, s₁, h₁, h⟩ := h.split
  obtain ⟨flag, s₂, h₂, h₃⟩ := h.split
  have hplace := h₁.place hp hσ
  have hload := h₂.load hp hplace.2
  have hrun := hplace.trans hload
  have hflag := σ.next.temps_set flag (σ.next.fields ⟨ctx.leafName, name⟩)
  cases htrue : (σ.fields ⟨ctx.leafName, name⟩).isTrue with
  | true =>
    have hskip := h₃.skipped hp hload.2 (by rw [hflag]; simp [Machine.next, htrue])
    exact ⟨_, hrun.trans hskip, rfl, rfl⟩
  | false => exact ⟨_, hrun.trans (h₃.taken hp hload.2 hn (by rw [hflag]; exact htrue)), rfl, rfl⟩

instance (fields : PendingFields) (exit checkReturn after : Label) :
    Growing (takeUp fields exit checkReturn after) := by
  unfold takeUp
  infer_instance

/-- Behind the finally block, the completion that is encoded continues in the surroundings. -/
theorem takeUp_arrives {exit : Label} (h : takeUp fields exit checkReturn after ctx s = .ok () s')
    (hctx : ctx.Routable s) (hp : p.Holds s s') (hplaces : p.Places ctx) {c : Completion V}
    (hσ : σ.pc = s.code.size) (hencodes : fields.Encodes ctx.leafName σ.fields c) :
    ∃ τ, p.RunOn (Set.Ico s.code.size s'.code.size) σ τ ∧ σ.SameBut (ctx.written c) τ ∧
      p.Arrives ctx s' c τ := by
  obtain ⟨_, s₁, h₁, h⟩ := (Stretch.whole h).split
  obtain ⟨thrown, s₂, h₂, h⟩ := h.split
  obtain ⟨_, s₃, h₃, h⟩ := h.split
  obtain ⟨_, s₄, h₄, h⟩ := h.split
  obtain ⟨returned, s₅, h₅, h⟩ := h.split
  obtain ⟨_, s₆, h₆, h₇⟩ := h.split
  obtain ⟨_, _, hcheck, -⟩ := h₄.split
  obtain ⟨τ, hτ, hworld, hfields⟩ := testFlag_runs h₁ hp (hcheck.label hp) hσ
  cases c with
  | throw v =>
    rw [hencodes.1, if_pos rfl] at hτ
    have hload := h₂.load hp hτ.2
    obtain ⟨u, s', hboxed, hends⟩ :=
      throwValue_ends ⟨ctx, _, _, h₃.run⟩ (h₃.holds hp) hplaces s'
    obtain ⟨rfl, rfl⟩ := asObject_object (loadState_object h₂.run) hboxed
    obtain ⟨ω, hω, hsame, harrives⟩ := hends _ hload.2
    rw [Machine.temps_set, hfields, hencodes.2] at hsame harrives
    exact ⟨ω, (hτ.trans hload).1.trans (hω.mono h₃.subset), ⟨hsame.world.trans hworld, fun f hf =>
      (hsame.fields f hf).trans (congrFun hfields f)⟩, harrives⟩
  | normal =>
    rw [hencodes.1, if_neg Bool.false_ne_true] at hτ
    obtain ⟨υ, hυ, hworld', hfields'⟩ := testFlag_runs h₄ hp (h₇.label hp) hτ.2
    rw [hfields, hencodes.2, if_neg Bool.false_ne_true] at hυ
    have hplace := h₇.place hp hυ.2
    exact ⟨_, (hτ.trans (hυ.trans hplace)).1, ⟨hworld'.trans hworld, fun f _ =>
      congrFun (hfields'.trans hfields) f⟩, hplace.2⟩
  | ret v =>
    rw [hencodes.1, if_neg Bool.false_ne_true] at hτ
    obtain ⟨υ, hυ, hworld', hfields'⟩ := testFlag_runs h₄ hp (h₇.label hp) hτ.2
    rw [hfields, hencodes.2.1, if_pos rfl] at hυ
    have hload := h₅.load hp hυ.2
    obtain ⟨u, s', hboxed, hends⟩ :=
      returnValue_ends ⟨ctx, _, _, h₆.run⟩ (hctx.mono h₆.before) (h₆.holds hp) hplaces s'
    obtain ⟨rfl, rfl⟩ := asObject_object (loadState_object h₅.run) hboxed
    obtain ⟨ω, hω, hsame, harrives⟩ := hends _ hload.2
    rw [Machine.temps_set, hfields', hfields, hencodes.2.2] at hsame harrives
    exact ⟨ω, (hτ.trans (hυ.trans hload)).1.trans (hω.mono h₆.subset),
      ⟨hsame.world.trans (hworld'.trans hworld),
      fun f hf => (hsame.fields f hf).trans (congrFun (hfields'.trans hfields) f)⟩, harrives⟩

/-! ### Inside the region -/

variable {code : Lower Unit}

theorem routed_ok {throwLabel : Label} {finallyRoute : Option FinallyRoute}
    (h : routed fields throwLabel finallyRoute code ctx s = .ok () s') :
    ∃ throwState s₁, code { ctx with
        frames := .routed ⟨throwLabel, throwState, fields, finallyRoute⟩ :: ctx.frames } s₁
          = .ok () s' ∧
      s.SameCode s₁ ∧ (ctx.function.isAsync = true →
        ∃ q ∈ s₁.resumePoints.toList, throwState = some q.state ∧ q.label = throwLabel) := by
  replace h := read_ok h
  split at h
  · obtain ⟨throwState, s₁, h₁, h₂⟩ := bind_ok h
    cases h₁
    exact ⟨_, _, h₂, ⟨rfl, rfl, by simp, le_rfl⟩, fun _ => ⟨_, by simp; exact .inr rfl, rfl, rfl⟩⟩
  · exact ⟨none, s, h, .of_eq rfl rfl rfl rfl, fun hasync => absurd hasync ‹_›⟩

instance [Growing code] {throwLabel : Label} {finallyRoute : Option FinallyRoute} :
    Growing (routed fields throwLabel finallyRoute code) :=
  ⟨.of_run (fun _ _ _ => trivial) fun _ h => by
    obtain ⟨_, s₁, h₁, hsame, -⟩ := routed_ok h
    exact ⟨hsame.grows.trans (Growing.grows h₁), List.forall_mem_nil _⟩⟩

instance [Growing code] {toFinally inFinally entry exit checkReturn after : Label} :
    Growing (finishing fields code toFinally inFinally entry exit checkReturn after) := by
  unfold finishing
  infer_instance

end Lower

/-- The inner context is inside a routed region with a finally block, directly inside the outer
context. -/
def Context.Inside (inner outer : Context) (fields : PendingFields) : Prop :=
  ∃ route f, inner = { outer with frames := .routed route :: outer.frames } ∧
    route.fields = fields ∧ route.finallyRoute = some f

namespace Context

variable {inner outer : Context} {fields : PendingFields}

theorem Inside.pending_subset (h : inner.Inside outer fields) : outer.pending ⊆ inner.pending := by
  obtain ⟨route, f, rfl, -, -⟩ := h
  rintro ref ⟨route', hroute', href⟩
  exact ⟨route', .tail _ hroute', href⟩

theorem Inside.refs_subset (h : inner.Inside outer fields) :
    fields.refs outer.leafName ⊆ inner.pending := by
  obtain ⟨route, f, rfl, rfl, -⟩ := h
  exact fun ref href => ⟨route, (.head _) .., href⟩

theorem Inside.written_subset (h : inner.Inside outer fields) (c : Completion V) :
    inner.written c ⊆ fields.refs outer.leafName := by
  obtain ⟨route, f, rfl, rfl, hf⟩ := h
  cases c with
  | normal => exact Set.empty_subset _
  | throw v =>
    rintro ref rfl
    exact PendingFields.mem_refs (by simp [PendingFields.names])
  | ret v =>
    have hfind : (Frame.routed route :: outer.frames).findSome? Frame.finallyRoute?
        = some (route.fields, f) := by
      simp [Frame.finallyRoute?, hf]
    simp only [written, hfind]
    exact subset_rfl

theorem Routable.inside {ctx : Context} {s s₁ : Session} (h : ctx.Routable s) (hs : s.Grows s₁)
    {route : Route} {n : Nat} (hn : n < s₁.routedCount) (hfields : route.fields = .numbered n)
    (hresumes : ctx.function.isAsync = true →
      ∃ q ∈ s₁.resumePoints.toList, route.throwState = some q.state ∧ q.label = route.throwLabel) :
    Routable { ctx with frames := .routed route :: ctx.frames } s₁ where
  plain frame hframe := by
    rcases List.mem_cons.1 hframe with rfl | hframe
    · rfl
    · exact h.plain frame hframe
  numbered route' hroute' := by
    rcases List.mem_cons.1 hroute' with heq | hroute'
    · cases heq
      exact ⟨n, hn, hfields⟩
    · exact (h.mono hs).numbered route' hroute'
  resumes hasync route' hroute' := by
    rcases List.mem_cons.1 hroute' with heq | hroute'
    · cases heq
      exact hresumes hasync
    · exact (h.mono hs).resumes hasync route' hroute'

end Context

/-- With the completion `c` of what is guarded, the machine goes to the finalizer, and however that
completes, the completion that is then left continues in the surroundings. The steps outside the
finalizer are at the positions of `G`. -/
def Program.Finishes {m : Lower Unit} (p : Program V W) (G : Set Nat) (ctx : Context) (s : Session)
    (own : Set FieldRef) (F : Lower.Site m) (σ : Machine V W) (c : Completion V) : Prop :=
  ∃ τ, p.RunOn G σ τ ∧ τ.pc = F.before.code.size ∧ σ.SameBut own τ ∧
    ∀ c' υ, p.Completes F τ c' υ →
      ∃ ω, p.RunOn G υ ω ∧ υ.SameBut (own ∪ ctx.written (c.finallyThen c')) ω ∧
        p.Arrives ctx s (c.finallyThen c') ω

theorem Program.Finishes.prepend {p : Program V W} {F : Lower.Site m} {σ τ : Machine V W}
    {c : Completion V} (h : p.Finishes G ctx s own F τ c) (hrun : p.RunOn G σ τ)
    (hsame : σ.SameBut own τ) :
    p.Finishes G ctx s own F σ c := by
  obtain ⟨υ, hυ, hpc, hsame', hnext⟩ := h
  exact ⟨υ, hrun.trans hυ, hpc, hsame.trans hsame', hnext⟩

theorem Program.Finishes.mono {p : Program V W} {G' : Set Nat} {F : Lower.Site m}
    {σ : Machine V W} {c : Completion V} (h : p.Finishes G ctx s own F σ c)
    (hG : G ⊆ G') : p.Finishes G' ctx s own F σ c := by
  obtain ⟨τ, hτ, hpc, hsame, hnext⟩ := h
  refine ⟨τ, hτ.mono hG, hpc, hsame, fun c' υ hdone => ?_⟩
  obtain ⟨ω, hω, hsame', harrives⟩ := hnext c' υ hdone
  exact ⟨ω, hω.mono hG, hsame', harrives⟩

namespace Lower

variable {ctx : Context} {s s' : Session} {fields : PendingFields}

/-- From the finally block on, the finalizer is executed once. The block is entered at its label
with a completion encoded, or at the label in front of it with an exception. An exception from the
finalizer itself continues in the surroundings. -/
theorem finalizer_finishes {finalizer : Lower Unit} [Growing finalizer]
    {exceptionToFinally exceptionInFinally entry exit checkReturn after : Label}
    (hrun : finishing fields finalizer exceptionToFinally exceptionInFinally entry exit checkReturn
      after ctx s = .ok () s')
    (hctx : ctx.Routable s) {k : Nat} (hk : k < s.routedCount) (hfields : fields = .numbered k) :
    ∃ F : Site finalizer, F.ctx.Inside ctx fields ∧ F.Sound ∧ s.Grows F.before ∧
      F.before.Grows F.after ∧ F.after.Grows s' ∧
      ∀ {V W : Type} (p : Program V W), p.Holds s s' → p.Places ctx → p.LabelsUnique →
        let G := Set.Ico s.code.size F.before.code.size ∪ Set.Ico F.after.code.size s'.code.size
        p.HasLabel exceptionToFinally ∧ p.HasLabel entry ∧ p.HasLabel exit ∧ p.Places F.ctx ∧
        (∀ σ c, p.code[σ.pc]? = some (.label entry) → fields.Encodes ctx.leafName σ.fields c →
          p.Finishes G ctx s' (fields.refs ctx.leafName) F σ c) ∧
        (∀ σ, p.code[σ.pc]? = some (.label exceptionToFinally) →
          p.Finishes G ctx s' (fields.refs ctx.leafName) F σ
            (.throw (σ.fields ⟨ctx.leafName, fields.exception⟩))) ∧
        ∀ σ v, p.Arrives F.ctx F.after (.throw v) σ →
          ∃ τ, p.RunOn G σ τ ∧ σ.SameBut (fields.refs ctx.leafName ∪ ctx.written (.throw v)) τ ∧
            p.Arrives ctx s' (.throw v) τ := by
  have hnames : fields.names.Nodup := hfields ▸ PendingFields.names_numbered_nodup k
  obtain ⟨_, s₁, hnote, h⟩ := (Stretch.whole hrun).split
  obtain ⟨_, s₂, henter, h⟩ := h.split
  obtain ⟨_, s₄, h₃, hback⟩ := h.split
  obtain ⟨throwState, s₃, hpart, hsame₃, hresumes⟩ := routed_ok h₃.run
  obtain ⟨_, s₅, h₅, hrest⟩ := hback.own.split
  obtain ⟨_, s₆, h₆, h₇⟩ := hrest.split
  obtain ⟨_, _, hexit, -⟩ := h₇.split
  obtain ⟨_, _, hexit, -⟩ := hexit.split
  obtain ⟨_, _, hin, -⟩ := h₆.split
  have g₄ := Growing.grows hpart
  have l₃ := h₃.before.trans hsame₃.grows
  let F : Site finalizer := ⟨_, s₃, s₄, hpart⟩
  have hinside : F.ctx.Inside ctx fields := ⟨_, _, rfl, rfl, rfl⟩
  have hsound : F.Sound := hctx.inside l₃ (hk.trans_le l₃.routed) hfields hresumes
  refine ⟨F, hinside, hsound, l₃, g₄, hback.grows, ?_⟩
  intro V W p hp hplaces hunique G
  obtain ⟨_, _, hto, -⟩ := hnote.split
  replace hto := hto.label hp
  have hentry := henter.label hp
  have hfront := hnote.holds hp
  have henters := henter.holds hp
  replace hp := hback.holds hp
  replace hin := hin.label hp
  replace hexit := hexit.label hp
  have hbefore : Set.Ico s.code.size s₂.code.size ⊆ G :=
    (Set.Ico_subset_Ico_right hsame₃.grows.size_le).trans Set.subset_union_left
  -- whatever is encoded behind the finally block, the machine takes it up
  have htake : ∀ {σ : Machine V W} {c : Completion V}, σ.pc = s₆.code.size →
      fields.Encodes ctx.leafName σ.fields c →
      ∃ ω, p.RunOn G σ ω ∧ σ.SameBut (fields.refs ctx.leafName ∪ ctx.written c) ω ∧
        p.Arrives ctx s' c ω := by
    intro σ c hσ hencodes
    obtain ⟨ω, hω, hsame, harrives⟩ := takeUp_arrives h₇.run
      (hctx.mono (hback.before.trans h₇.before)) (h₇.holds hp) hplaces hσ hencodes
    exact ⟨ω, hω.mono (h₇.subset.trans (by grind)), hsame.mono Set.subset_union_right, harrives⟩
  have hfromInside : ∀ υ v, p.Arrives F.ctx F.after (.throw v) υ →
      ∃ ω, p.RunOn G υ ω ∧ υ.SameBut (fields.refs ctx.leafName ∪ ctx.written (.throw v)) ω ∧
        p.Arrives ctx s' (.throw v) ω := by
    rintro υ _ ⟨hlabel, rfl⟩
    obtain ⟨υ', hυ', hsame, hencodes⟩ :=
      noteAt_encodes h₆ hp hnames hexit (hunique _ _ _ hlabel hin)
    obtain ⟨ω, hω, hsame', hends⟩ := htake hυ'.2 hencodes
    exact ⟨ω, (hυ'.1.mono (by grind)).trans hω,
      (hsame.mono Set.subset_union_left).trans hsame', hends⟩
  have hfromEntry : ∀ σ c, p.code[σ.pc]? = some (.label entry) →
      fields.Encodes ctx.leafName σ.fields c →
      p.Finishes G ctx s' (fields.refs ctx.leafName) F σ c := by
    intro σ c hlabel hencodes
    have hplace := henter.own.place henters (hunique _ _ _ hlabel hentry)
    have hpc : s₃.code.size = s₂.code.size := by rw [hsame₃.code]
    refine ⟨σ.next, hplace.1.mono ((Set.Ico_subset_Ico_left hnote.grows.size_le).trans hbefore),
      hplace.2.trans hpc.symm, ⟨rfl, fun _ _ => rfl⟩, fun c' υ hdone => ?_⟩
    have harrives := hdone.arrives
    cases c' with
    | normal =>
      have hencodes' : fields.Encodes ctx.leafName υ.fields c :=
        hencodes.congr fun f hf => hdone.keeps f (hinside.refs_subset hf) (Set.notMem_empty f)
      have hbranch := h₅.branch hp harrives hexit
      obtain ⟨ω, hω, hsame, hends⟩ := htake hbranch.2 hencodes'
      exact ⟨ω, (hbranch.1.mono (by grind)).trans hω, ⟨hsame.world, hsame.fields⟩, hends⟩
    | throw v => exact hfromInside υ v harrives
    | ret v =>
      obtain ⟨hlabel', hvalue, hflag, hflag'⟩ := harrives
      exact htake (hunique _ _ _ hlabel' hexit) ⟨hflag', hflag, hvalue⟩
  have hinner : p.Places F.ctx := hplaces.cons ⟨_, hin⟩ fun f hf => by
    cases hf
    exact ⟨⟨_, hentry⟩, ⟨_, hexit⟩⟩
  refine ⟨⟨_, hto⟩, ⟨_, hentry⟩, ⟨_, hexit⟩, hinner, hfromEntry, fun σ hlabel => ?_, hfromInside⟩
  obtain ⟨τ, hτ, hsame, hencodes⟩ :=
    noteAt_encodes hnote.own hfront hnames hentry (hunique _ _ _ hlabel hto)
  exact (hfromEntry τ _ (hτ.2 ▸ hentry) hencodes).prepend
    (hτ.1.mono ((Set.Ico_subset_Ico_right henter.grows.size_le).trans hbefore)) hsame

end Lower

end ScriptLowering
