import ScriptLowering.Proofs.Routing.Finalizer
import ScriptLowering.Proofs.Routing.Parts

/-!
# Routed `try` statements

In a resumable function, a `try` around a suspend point is no protected region: exceptions and
returns are recorded in state fields, and branches lead them through the handler and the finalizer.
This module shows that the code does what the completion of the statement asks for.

The statement has up to three parts, and the machine runs through the code that is no part of them
without a choice. The handler is entered when the block throws or an `await` in it is rejected, and
it is given the exception. However the block or the handler completes, the finalizer is then
executed, and it is executed once. Its abrupt completion takes the place of the one that was
pending. What is left continues in the surroundings: an exception and a return in the regions
around, a normal completion behind the statement.

## Main results

* `Program.RunsTry`: the behaviour of a `try` statement with a finalizer;
* `Program.Forwards`: exceptions go through finalizers from one context to another;
* `Lower.lowerStmt_routedParts`: the code of such a statement has this behaviour.
-/

namespace ScriptLowering

variable {clause : Option CatchClause} {V W : Type}

namespace Lower

/-- The run that lowers a handler, and the temp that holds the exception. -/
structure HandlerSite (handler : Temp → Lower Unit) where
  exception : Temp
  site : Site (handler exception)

/-- The runs that lower the parts of a `try` statement with a finalizer. -/
structure FinallySites (block : Lower Unit) (handler : Option (Temp → Lower Unit))
    (finalizer : Lower Unit) where
  tried : Site block
  caught : ∀ h, handler = some h → HandlerSite h
  final : Site finalizer

variable {m block finalizer : Lower Unit} {handler : Option (Temp → Lower Unit)}

/-- The positions of the statement that belong to none of its parts. -/
def FinallySites.glue (L : FinallySites block handler finalizer) (a : Site m) : Set Nat :=
  { n ∈ a.span | n ∉ L.tried.span ∧ n ∉ L.final.span ∧ ∀ h hh, n ∉ (L.caught h hh).site.span }

/-- The run is a part of a run for a routed statement with the given fields: its code is a part of
the statement's code, and what it throws and returns goes to the statement. -/
structure Site.PartOf {m' : Lower Unit} (b : Site m') (a : Site m) (fields : PendingFields) :
    Prop where
  inside : b.ctx.Inside a.ctx fields
  sound : b.Sound
  before : a.before.Grows b.before
  grows : b.before.Grows b.after
  after : b.after.Grows a.after

theorem Site.PartOf.span_subset {m' : Lower Unit} {b : Site m'} {a : Site m}
    {fields : PendingFields} (h : b.PartOf a fields) : b.span ⊆ a.span :=
  Set.Ico_subset_Ico h.before.size_le h.after.size_le

/-- These are the parts of the statement, one behind the other. -/
structure FinallySites.Of (L : FinallySites block handler finalizer) (a : Site m)
    (fields : PendingFields) : Prop where
  tried : L.tried.PartOf a fields
  final : L.final.PartOf a fields
  caught : ∀ h hh, (L.caught h hh).site.PartOf a fields
  order : L.tried.after.Grows L.final.before
  order_caught : ∀ h hh, L.tried.after.Grows (L.caught h hh).site.before ∧
    (L.caught h hh).site.after.Grows L.final.before

end Lower

open Lower

variable {m block finalizer : Lower Unit} {handler : Option (Temp → Lower Unit)}

/-- The statement was entered in `σ₀`, and what it guards has completed in `σ` with `c`. The machine
goes on to the finalizer. However the finalizer completes, the statement completes with what is then
left. -/
def Program.Finalizes (p : Program V W) (a : Site m) (L : FinallySites block handler finalizer)
    (own : Set FieldRef) (σ₀ σ : Machine V W) (c : Completion V) : Prop :=
  ∃ τ, p.RunOn (L.glue a) σ τ ∧ τ.pc = L.final.before.code.size ∧ σ.SameBut own τ ∧
    ∀ c' υ, p.Completes L.final τ c' υ →
      ∃ ω, p.RunOn (L.glue a) υ ω ∧ υ.SameBut (own ∪ a.ctx.written (c.finallyThen c')) ω ∧
        p.Completes a σ₀ (c.finallyThen c') ω

/-- The behaviour of a `try` statement with a finalizer that is entered in `σ`. The machine goes to
the block. If the block throws and there is a handler, the machine goes on to the handler with the
exception, and from there to the finalizer; otherwise it goes on to the finalizer directly. -/
def Program.RunsTry (p : Program V W) (a : Site m) (L : FinallySites block handler finalizer)
    (own : Set FieldRef) (σ : Machine V W) : Prop :=
  ∃ τ, p.RunOn (L.glue a) σ τ ∧ τ.pc = L.tried.before.code.size ∧ σ.SameBut own τ ∧
    ∀ c υ, p.Completes L.tried τ c υ →
      (∀ v h hh, c = .throw v →
        ∃ τ', p.RunOn (L.glue a) υ τ' ∧ τ'.pc = (L.caught h hh).site.before.code.size ∧
          τ'.temps (L.caught h hh).exception = v ∧ υ.SameBut own τ' ∧
          ∀ c' υ', p.Completes (L.caught h hh).site τ' c' υ' → p.Finalizes a L own σ υ' c') ∧
      ((handler = none ∨ ∀ v, c ≠ .throw v) → p.Finalizes a L own σ υ c)

/-- The exception is on its way to where code in the context leads it. The machine comes to the
finalizers of the list on the way; when the first one has completed normally it goes on to the
next. -/
def Program.Unwinds (p : Program V W) (S : Set Nat) (ctx : Context) (v : Datum V) :
    List ((m : Lower Unit) × Site m) → Machine V W → Prop
  | [], σ => ∃ τ, p.RunOn S σ τ ∧ p.Arrives ctx {} (.throw v) τ
  | F :: rest, σ => ∃ τ, p.RunOn S σ τ ∧ τ.pc = F.2.before.code.size ∧
      ∀ υ, p.Completes F.2 τ .normal υ → p.Unwinds S ctx v rest υ

/-- What code in the inner context throws goes through the finalizers to where code in the outer
context leads it. -/
def Program.Forwards (p : Program V W) (S : Set Nat) (inner outer : Context)
    (finalizers : List ((m : Lower Unit) × Site m)) : Prop :=
  ∀ v σ, p.Arrives inner {} (.throw v) σ → p.Unwinds S outer v finalizers σ

/-- In the program, these are the ways of what the parts of the statement throw. An exception from
the block goes to the handler, if there is one. Any other goes on around the statement: from the
finalizer it does so at once, and otherwise through the finalizer. -/
structure Lower.FinallySites.Routes (L : FinallySites block handler finalizer) (a : Site m)
    (p : Program V W) : Prop where
  places_tried : p.Places L.tried.ctx
  places_caught : ∀ h hh, p.Places (L.caught h hh).site.ctx
  places_final : p.Places L.final.ctx
  handled : ∀ h hh v σ, p.Arrives L.tried.ctx {} (.throw v) σ →
    ∃ τ, p.RunOn a.span σ τ ∧ τ.pc = (L.caught h hh).site.before.code.size ∧
      τ.temps (L.caught h hh).exception = v
  tried : handler = none → p.Forwards a.span L.tried.ctx a.ctx [⟨_, L.final⟩]
  caught : ∀ h hh, p.Forwards a.span (L.caught h hh).site.ctx a.ctx [⟨_, L.final⟩]
  final : p.Forwards a.span L.final.ctx a.ctx []

theorem Program.Finishes.unwinds {p : Program V W} {G S : Set Nat} {ctx : Context} {s : Session}
    {own : Set FieldRef} {F : Site m} {σ : Machine V W} {v : Datum V}
    (h : p.Finishes G ctx s own F σ (.throw v)) (hG : G ⊆ S) :
    p.Unwinds S ctx v [⟨m, F⟩] σ := by
  obtain ⟨τ, hτ, hpc, -, hnext⟩ := h
  refine ⟨τ, hτ.mono hG, hpc, fun υ hdone => ?_⟩
  obtain ⟨ω, hω, -, harrives⟩ := hnext .normal υ hdone
  exact ⟨ω, hω.mono hG, harrives⟩

/-- What continues as a finalizer does, within the statement. -/
theorem Program.Finishes.finalizes {p : Program V W} {a : Site m}
    {L : FinallySites block handler finalizer} {fields : PendingFields} {σ₀ σ : Machine V W}
    {c : Completion V}
    (h : p.Finishes (L.glue a) a.ctx a.after (fields.refs a.ctx.leafName) L.final σ c)
    (hfinal : L.final.PartOf a fields)
    (hapart : ∀ f ∈ a.ctx.pending, f ∉ fields.refs a.ctx.leafName)
    (hstart : σ₀.pc = a.before.code.size) (hrun : p.RunOn a.span σ₀ σ)
    (hkept : ∀ f ∈ a.ctx.pending, σ.fields f = σ₀.fields f) :
    p.Finalizes a L (fields.refs a.ctx.leafName) σ₀ σ c := by
  obtain ⟨τ, hτ, hpc, hsame, hnext⟩ := h
  refine ⟨τ, hτ, hpc, hsame, fun c' υ hdone => ?_⟩
  obtain ⟨ω, hω, hsame', harrives⟩ := hnext c' υ hdone
  have hglue : L.glue a ⊆ a.span := Set.sep_subset _ _
  refine ⟨ω, hω, hsame', hstart, ?_, harrives, fun f hf hwritten => ?_⟩
  · have hfinalizer := hdone.run.mono hfinal.span_subset
    exact hrun.trans ((hτ.mono hglue).trans (hfinalizer.trans (hω.mono hglue)))
  · have hown := hapart f hf
    rw [hsame'.fields f (fun hmem => hmem.elim hown hwritten),
      hdone.keeps f (hfinal.inside.pending_subset hf) fun hmem =>
        hown (hfinal.inside.written_subset c' hmem),
      hsame.fields f hown, hkept f hf]

namespace Lower

variable {p : Program V W} {ctx : Context} {A Z s s' : Session} {fields : PendingFields}
variable {k : Nat} {start s₁ s₂ : Session} {t : Temp} {σ τ : Machine V W} {c : Completion V}

/-! ### Entering the parts -/

instance : Growing (clearPending fields) := by
  unfold clearPending
  infer_instance

instance : Growing (takeException fields) := by
  unfold takeException
  infer_instance

theorem clearPending_encodes (h : Stretch A Z (clearPending fields) ctx s () s')
    (hnames : fields.names.Nodup) (hp : p.Holds A Z) (hσ : σ.pc = s.code.size) :
    ∃ τ, p.Reaches (Set.Ico A.code.size Z.code.size) σ τ s'.code.size ∧
      σ.SameBut (fields.refs ctx.leafName) τ ∧ fields.Encodes ctx.leafName τ.fields .normal := by
  obtain ⟨_, s₁, h₁, h⟩ := h.split
  obtain ⟨_, s₂, h₂, h⟩ := h.split
  obtain ⟨_, s₃, h₃, h₄⟩ := h.split
  have hexception := h₁.clearState hp hσ
  have hflag := h₂.setFlag hp hexception.2
  have hvalue := h₃.clearState hp hflag.2
  have hreturn := h₄.setFlag hp hvalue.2
  refine ⟨_, hexception.trans (hflag.trans (hvalue.trans hreturn)), ⟨rfl, fun f hf => ?_⟩, ?_⟩
  · simp [Machine.put, Machine.set, Machine.store, PendingFields.ne_of_notMem hf]
  · simp only [PendingFields.names, List.nodup_cons, List.mem_cons, List.not_mem_nil, or_false,
      not_or] at hnames
    simp [PendingFields.Encodes, Machine.put, Machine.set, Machine.store, hnames]

/-- The exception is in its temp then. If no return was pending, nothing is. -/
theorem takeException_encodes (h : Stretch A Z (takeException fields) ctx s t s')
    (hnames : fields.names.Nodup) (hp : p.Holds A Z) (hσ : σ.pc = s.code.size) :
    ∃ τ, p.Reaches (Set.Ico A.code.size Z.code.size) σ τ s'.code.size ∧
      σ.SameBut (fields.refs ctx.leafName) τ ∧
      τ.temps t = σ.fields ⟨ctx.leafName, fields.exception⟩ ∧
      ((σ.fields ⟨ctx.leafName, fields.hasReturn⟩).isTrue = false →
        fields.Encodes ctx.leafName τ.fields .normal) := by
  obtain ⟨exception, s₁, h₁, h⟩ := h.split
  obtain ⟨_, s₂, h₂, h⟩ := h.split
  obtain ⟨_, s₃, h₃, h⟩ := h.split
  obtain ⟨rfl, rfl⟩ : exception = t ∧ s₃ = s' := by
    cases h.run
    exact ⟨rfl, rfl⟩
  obtain ⟨-, rfl, htemps⟩ := loadState_pushes h₁.run
  have hload := h₁.load hp hσ
  have hclear := h₂.clearState hp hload.2
  have hflag := h₃.setFlag hp hclear.2
  have hsize := clearState_temps h₂.run
  refine ⟨_, hload.trans (hclear.trans hflag), ⟨rfl, fun f hf => ?_⟩, ?_, fun hreturn => ?_⟩
  · simp [Machine.put, Machine.set, Machine.store, PendingFields.ne_of_notMem hf]
  · simp [Machine.put, Machine.set, Machine.store, htemps, hsize, Nat.add_assoc]
  · simp only [PendingFields.names, List.nodup_cons, List.mem_cons, List.not_mem_nil, or_false,
      not_or] at hnames
    obtain ⟨⟨-, -, hexception⟩, ⟨-, hthrown⟩, -⟩ := hnames
    simp [PendingFields.Encodes, Machine.put, Machine.set, Machine.store,
      Ne.symm hexception, Ne.symm hthrown, hreturn]

/-! ### Leaving the parts -/

/-- A guarded part leads to the finalizer, unless its exceptions go to the handler. -/
theorem guarded_finishes {entry exit throwLabel exceptionToFinally : Label} {st : Option Nat}
    {B : Site m} {F : Site finalizer} {G : Set Nat} {z : Session}
    (hB : B.ctx = { ctx with frames := .routed ⟨throwLabel, st, fields, some ⟨entry, exit, false⟩⟩ ::
      ctx.frames })
    (hbranch : Stretch A Z (branch entry) ctx B.after () s₁) (hp : p.Holds A Z)
    (hG : Set.Ico A.code.size Z.code.size ⊆ G) (hentry : p.HasLabel entry)
    (hfromEntry : ∀ σ c, p.code[σ.pc]? = some (.label entry) →
      fields.Encodes ctx.leafName σ.fields c →
      p.Finishes G ctx z (fields.refs ctx.leafName) F σ c)
    (hfromThrow : ∀ σ, p.code[σ.pc]? = some (.label exceptionToFinally) →
      p.Finishes G ctx z (fields.refs ctx.leafName) F σ
        (.throw (σ.fields ⟨ctx.leafName, fields.exception⟩)))
    (harrives : p.Arrives B.ctx B.after c σ)
    (hencodes : c = .normal → fields.Encodes ctx.leafName σ.fields .normal)
    (hthrow : throwLabel = exceptionToFinally ∨ ∀ v, c ≠ .throw v) :
    p.Finishes G ctx z (fields.refs ctx.leafName) F σ c := by
  rw [hB] at harrives
  cases c with
  | normal =>
    obtain ⟨n, hn⟩ := hentry
    have hnext := hbranch.branch hp harrives hn
    exact (hfromEntry (σ.goto n) .normal hn (hencodes rfl)).prepend (hnext.1.mono hG)
      ⟨rfl, fun _ _ => rfl⟩
  | throw v =>
    obtain ⟨hlabel, rfl⟩ := harrives
    rcases hthrow with rfl | hthrow
    · exact hfromThrow σ hlabel
    · exact (hthrow _ rfl).elim
  | ret v =>
    obtain ⟨hlabel, hvalue, hflag, hflag'⟩ := harrives
    exact hfromEntry σ (.ret v) hlabel ⟨hflag', hflag, hvalue⟩

end Lower

/-- What completes in the region leaves the pending fields around as they are. -/
theorem Program.Completes.kept {p : Program V W} {B : Site m} {ctx : Context}
    {fields : PendingFields}
    {σ τ : Machine V W} {c : Completion V} (h : p.Completes B σ c τ) (hB : B.ctx.Inside ctx fields)
    (hapart : ∀ f ∈ ctx.pending, f ∉ fields.refs ctx.leafName) :
    ∀ f ∈ ctx.pending, τ.fields f = σ.fields f :=
  fun f hf => h.keeps f (hB.pending_subset hf) fun hmem => hapart f hf (hB.written_subset c hmem)

/-- In the program, the code between the parts of the statement leads from each part to the next. -/
structure Lower.FinallySites.Joins (L : FinallySites block handler finalizer) (a : Site m)
    (fields : PendingFields) (p : Program V W) : Prop where
  places_tried : p.Places L.tried.ctx
  places_caught : ∀ h hh, p.Places (L.caught h hh).site.ctx
  places_final : p.Places L.final.ctx
  starts : ∀ σ, σ.pc = a.before.code.size →
    ∃ τ, p.Reaches (L.glue a) σ τ L.tried.before.code.size ∧
      σ.SameBut (fields.refs a.ctx.leafName) τ ∧ fields.Encodes a.ctx.leafName τ.fields .normal
  tried : ∀ σ c, p.Arrives L.tried.ctx L.tried.after c σ →
    (c = .normal → fields.Encodes a.ctx.leafName σ.fields .normal) →
    (handler = none ∨ ∀ v, c ≠ .throw v) →
    p.Finishes (L.glue a) a.ctx a.after (fields.refs a.ctx.leafName) L.final σ c
  handled : ∀ h hh v σ, p.Arrives L.tried.ctx L.tried.after (.throw v) σ →
    ∃ τ, p.Reaches (L.glue a) σ τ (L.caught h hh).site.before.code.size ∧
      τ.temps (L.caught h hh).exception = v ∧ σ.SameBut (fields.refs a.ctx.leafName) τ ∧
      ((σ.fields ⟨a.ctx.leafName, fields.hasReturn⟩).isTrue = false →
        fields.Encodes a.ctx.leafName τ.fields .normal)
  caught : ∀ h hh σ c, p.Arrives (L.caught h hh).site.ctx (L.caught h hh).site.after c σ →
    (c = .normal → fields.Encodes a.ctx.leafName σ.fields .normal) →
    p.Finishes (L.glue a) a.ctx a.after (fields.refs a.ctx.leafName) L.final σ c
  final : ∀ σ v, p.Arrives L.final.ctx L.final.after (.throw v) σ →
    ∃ τ, p.RunOn (L.glue a) σ τ ∧ p.Arrives a.ctx a.after (.throw v) τ

namespace Lower.FinallySites

variable {L : FinallySites block handler finalizer} {a : Site m} {fields : PendingFields}
  {p : Program V W}

theorem glue_subset : L.glue a ⊆ a.span :=
  Set.sep_subset _ _

theorem Joins.routes (h : L.Joins a fields p) : L.Routes a p where
  places_tried := h.places_tried
  places_caught := h.places_caught
  places_final := h.places_final
  handled m hm v σ harrives := by
    obtain ⟨τ, hτ, htemp, -⟩ := h.handled m hm v σ harrives
    exact ⟨τ, hτ.1.mono glue_subset, hτ.2, htemp⟩
  tried hnone v σ harrives := (h.tried σ (.throw v) harrives nofun (.inl hnone)).unwinds glue_subset
  caught m hm v σ harrives := (h.caught m hm σ (.throw v) harrives nofun).unwinds glue_subset
  final v σ harrives := by
    obtain ⟨τ, hτ, hends⟩ := h.final σ v harrives
    exact ⟨τ, hτ.mono glue_subset, hends⟩

/-- Where the code leads from each part to the next, the statement behaves as it should. -/
theorem Joins.runsTry (h : L.Joins a fields p) (hL : L.Of a fields) (hnames : fields.names.Nodup)
    (hapart : ∀ f ∈ a.ctx.pending, f ∉ fields.refs a.ctx.leafName) {σ : Machine V W}
    (hσ : σ.pc = a.before.code.size) : p.RunsTry a L (fields.refs a.ctx.leafName) σ := by
  -- a part that completes normally leaves nothing pending
  have hencoded : ∀ {m' : Lower Unit} {B : Site m'} {τ υ : Machine V W} {c : Completion V},
      B.ctx.Inside a.ctx fields → p.Completes B τ c υ →
      fields.Encodes a.ctx.leafName τ.fields .normal →
      c = .normal → fields.Encodes a.ctx.leafName υ.fields .normal := by
    rintro m' B τ υ _ hB hdone hencodes rfl
    exact hencodes.congr fun f hf => hdone.keeps f (hB.refs_subset hf) (Set.notMem_empty f)
  obtain ⟨τ, hτ, hsame, hencodes⟩ := h.starts σ hσ
  refine ⟨τ, hτ.1, hτ.2, hsame, fun c υ hdone => ?_⟩
  have hrun := (hτ.1.mono glue_subset).trans (hdone.run.mono hL.tried.span_subset)
  have hkept : ∀ f ∈ a.ctx.pending, υ.fields f = σ.fields f := fun f hf => by
    rw [hdone.kept hL.tried.inside hapart f hf, hsame.fields f (hapart f hf)]
  refine ⟨?_, fun hquiet => ?_⟩
  · rintro v m hm rfl
    obtain ⟨τ', hτ', htemp, hsame', hcleared⟩ := h.handled m hm v υ hdone.arrives
    refine ⟨τ', hτ'.1, hτ'.2, htemp, hsame', fun c' υ' hdone' => ?_⟩
    have hflag : ⟨a.ctx.leafName, fields.hasReturn⟩ ∉ L.tried.ctx.written (.throw v) := by
      obtain ⟨route, f, hctx, rfl, -⟩ := hL.tried.inside
      rw [hctx]
      intro hmem
      simp only [PendingFields.names, List.nodup_cons, List.mem_cons, not_or] at hnames
      exact hnames.1.2.2.1 (congrArg FieldRef.name (Set.mem_singleton_iff.1 hmem)).symm
    have hreturn : (υ.fields ⟨a.ctx.leafName, fields.hasReturn⟩).isTrue = false := by
      rw [hdone.keeps _ (hL.tried.inside.refs_subset
        (PendingFields.mem_refs (by simp [PendingFields.names]))) hflag]
      exact hencodes.2
    have hcaught := hL.caught m hm
    refine (h.caught m hm υ' c' hdone'.arrives
      (hencoded hcaught.inside hdone' (hcleared hreturn))).finalizes
      hL.final hapart hσ ?_ fun f hf => ?_
    · exact hrun.trans ((hτ'.1.mono glue_subset).trans (hdone'.run.mono hcaught.span_subset))
    · rw [hdone'.kept hcaught.inside hapart f hf, hsame'.fields f (hapart f hf), hkept f hf]
  · exact (h.tried υ c hdone.arrives (hencoded hL.tried.inside hdone hencodes)
      hquiet).finalizes hL.final
      hapart hσ hrun hkept

end Lower.FinallySites

namespace Lower

variable {p : Program V W} {ctx : Context} {s s' : Session} {fields : PendingFields}
variable {k : Nat} {start s₁ s₂ : Session} {t : Temp}

theorem Growing.handling [Growing m] (catchLabel toFinally entry exit : Label)
    (h : ∀ h, handler = some h → ∀ t, Growing (h t)) :
    Growing (handling fields handler m catchLabel toFinally entry exit) := by
  cases handler with
  | none => exact inferInstanceAs (Growing m)
  | some handler =>
    have := h handler rfl
    unfold Lower.handling
    infer_instance

theorem routedFinally_ok (h : routedFinally fields block handler finalizer ctx s = .ok () s') :
    ∃ catchLabel exceptionToFinally exceptionInFinally entry exit checkReturn after s₀,
      routedFinallyAt fields block handler finalizer catchLabel exceptionToFinally
        exceptionInFinally entry exit checkReturn after ctx s₀ = .ok () s' ∧ s.SameCode s₀ := by
  rw [routedFinally_eq] at h
  exact ⟨_, _, _, _, _, _, _, _, h, .of_eq rfl rfl rfl rfl⟩

/-- The handler, if there is one, is routed to the finally block, and it is entered at its label
with the exception. -/
theorem handling_parts {rest : Lower Unit} [Growing rest] {catchLabel toFinally entry exit : Label}
    (hrun : handling fields handler rest catchLabel toFinally entry exit ctx s = .ok () s')
    (hhandler : ∀ h, handler = some h → ∀ t, Growing (h t)) (hctx : ctx.Routable s)
    (hk : k < s.routedCount) (hfields : fields = .numbered k) :
    ∃ (z : Session) (caught : ∀ h, handler = some h → HandlerSite h), rest ctx z = .ok () s' ∧
      s.Grows z ∧ (handler = none → z = s) ∧ ∀ h hh,
        (caught h hh).site.Sound ∧
        (∃ st, (caught h hh).site.ctx = { ctx with
          frames := .routed ⟨toFinally, st, fields, some ⟨entry, exit, false⟩⟩ :: ctx.frames }) ∧
        s.Grows (caught h hh).site.before ∧
        (caught h hh).site.before.Grows (caught h hh).site.after ∧
        Stretch (caught h hh).site.after z (branch entry) ctx (caught h hh).site.after () z ∧
        ∀ {V W : Type} (p : Program V W), p.Holds s (caught h hh).site.before →
          p.code[s.code.size]? = some (.label catchLabel) ∧ ∀ σ, σ.pc = s.code.size →
            ∃ τ, p.Reaches (Set.Ico s.code.size (caught h hh).site.before.code.size) σ τ
                (caught h hh).site.before.code.size ∧
              σ.SameBut (fields.refs ctx.leafName) τ ∧
              τ.temps (caught h hh).exception = σ.fields ⟨ctx.leafName, fields.exception⟩ ∧
              ((σ.fields ⟨ctx.leafName, fields.hasReturn⟩).isTrue = false →
                fields.Encodes ctx.leafName τ.fields .normal) := by
  cases handler with
  | none => exact ⟨s, nofun, hrun, .refl s, fun _ => rfl, nofun⟩
  | some handler =>
    have := hhandler handler rfl
    unfold handling at hrun
    obtain ⟨_, s₁, hcatch, h⟩ := (Stretch.whole hrun).split
    obtain ⟨_, s₄, hguarded, h⟩ := h.split
    obtain ⟨_, z, hleave, hrest⟩ := h.split
    obtain ⟨st, s₂, hcaught, hsame, hresumes⟩ := routed_ok hguarded.run
    obtain ⟨t, s₃, htake, hbody⟩ := (Stretch.whole hcaught).split
    have g₂ := hguarded.before.trans hsame.grows
    have g₃ := g₂.trans htake.grows
    refine ⟨z, fun h hh => Option.some.inj hh ▸ ⟨t, ⟨_, s₃, s₄, hbody.run⟩⟩, hrest.run,
      hrest.before, nofun, ?_⟩
    rintro _ ⟨⟩
    refine ⟨(hctx.inside g₂ (hk.trans_le g₂.routed) hfields hresumes).mono htake.grows,
      ⟨st, rfl⟩, g₃,
      hbody.grows, hleave.own, fun p hp => ?_⟩
    have hplace : Stretch s s₃ (place catchLabel) ctx s () s₁ :=
      ⟨hcatch.run, .refl s, hcatch.grows, hsame.grows.trans htake.grows⟩
    refine ⟨hplace.label hp, fun σ hσ => ?_⟩
    have hentered := hplace.place hp hσ
    have hpc : s₂.code.size = s₁.code.size := by rw [hsame.code]
    obtain ⟨τ, hτ, hsameBut, htemp, hcleared⟩ := takeException_encodes
      (⟨htake.run, g₂, htake.grows, .refl s₃⟩ : Stretch s s₃ _ _ s₂ t s₃)
      (hfields ▸ PendingFields.names_numbered_nodup k) hp (hentered.2.trans hpc.symm)
    exact ⟨τ, hentered.trans hτ, ⟨hsameBut.world, hsameBut.fields⟩, htemp, hcleared⟩

/-- These are the parts of a routed statement. In every program that has the code of the statement,
the code behaves as such a statement, and what the parts throw goes its ways. -/
structure FinallySites.RoutedParts (L : FinallySites block handler finalizer) (a : Site m)
    (fields : PendingFields) : Prop where
  of : L.Of a fields
  runs : ∀ {V W : Type} (p : Program V W), p.Holds a.before a.after → p.Places a.ctx →
    p.LabelsUnique → L.Routes a p ∧ ∀ σ, σ.pc = a.before.code.size →
      p.RunsTry a L (fields.refs a.ctx.leafName) σ

theorem routedFinally_parts [Growing block] [Growing finalizer] (a : Site m) (ha : a.Sound)
    (hstart : a.before.SameCode start)
    (hrun : routedFinally (.numbered k) block handler finalizer a.ctx start = .ok () a.after)
    (hhandler : ∀ h, handler = some h → ∀ t, Growing (h t)) (hk : k < start.routedCount)
    (hapart : ∀ f ∈ a.ctx.pending, f ∉ (PendingFields.numbered k).refs a.ctx.leafName) :
    ∃ L : FinallySites block handler finalizer, L.RoutedParts a (.numbered k) := by
  have hnames := PendingFields.names_numbered_nodup k
  obtain ⟨catchLabel, toFinally, inFinally, entry, exit, checkReturn, after, s₀, hrun, e⟩ :=
    routedFinally_ok hrun
  replace hk := hk.trans_le e.routed
  replace e := hstart.trans e
  unfold routedFinallyAt at hrun
  have : Growing (handling (.numbered k) handler
    (finishing (.numbered k) finalizer toFinally inFinally
    entry exit checkReturn after) catchLabel toFinally entry exit) := .handling _ _ _ _ hhandler
  obtain ⟨_, s₁, hclear, h⟩ := (Stretch.whole hrun).split
  obtain ⟨_, s₃, hguarded, h⟩ := h.split
  obtain ⟨_, s₄, hleave, hhandling⟩ := h.split
  obtain ⟨st, s₂, hpart, hsame₂, hresumes⟩ := routed_ok hguarded.run
  have g₂ := hguarded.before.trans hsame₂.grows
  have l₂ := e.grows.trans g₂
  have g₃ := Growing.grows hpart
  have l₄ := e.grows.trans hhandling.before
  have hk₄ := hk.trans_le hhandling.before.routed
  obtain ⟨z, caught, hfinish, g₉, hnone, hcaught⟩ :=
    handling_parts hhandling.run hhandler (ha.mono l₄) hk₄ rfl
  have l₉ := l₄.trans g₉
  obtain ⟨F, hinsideF, hsoundF, b₁, b₂, b₃, hF⟩ :=
    finalizer_finishes hfinish (ha.mono l₉) (hk₄.trans_le g₉.routed) rfl
  let B : Site block := ⟨_, s₂, s₃, hpart⟩
  let L : FinallySites block handler finalizer := ⟨B, caught, F⟩
  have r₉ := b₁.trans (b₂.trans b₃)
  have hof : L.Of a (.numbered k) := by
    refine ⟨⟨⟨_, _, rfl, rfl, rfl⟩, ha.inside l₂ (hk.trans_le g₂.routed) rfl hresumes, l₂, g₃,
      hleave.grows.trans hhandling.grows⟩, ⟨hinsideF, hsoundF, l₉.trans b₁, b₂, b₃⟩,
      fun h hh => ?_, hleave.grows.trans (g₉.trans b₁), fun h hh => ?_⟩
    · obtain ⟨hsound, ⟨_, hctx⟩, gb, gc, hexit, -⟩ := hcaught h hh
      exact ⟨⟨_, _, hctx, rfl, rfl⟩, hsound, l₄.trans gb, gc, hexit.grows.trans r₉⟩
    · obtain ⟨-, -, gb, -, hexit, -⟩ := hcaught h hh
      exact ⟨hleave.grows.trans gb, hexit.grows.trans b₁⟩
  refine ⟨L, hof, ?_⟩
  intro V W p hp hplaces hunique
  obtain ⟨hto, hentry, hexit, hinner, hfromEntry, hfromThrow, hfromInside⟩ :=
    hF p (hp.between l₉ (.refl _)) hplaces hunique
  replace hp := hp.between e.grows (.refl _)
  -- the positions of the parts, one behind the other
  have hsize₀ : s₀.code.size = a.before.code.size := by rw [e.code]
  have hsize₁ := hsame₂.code ▸ hclear.grows.size_le
  have hsize₂ : s₂.code.size = s₁.code.size := by rw [hsame₂.code]
  have hsize₃ := g₃.size_le
  have hsize₄ := hleave.grows.size_le
  have hsize₉ := g₉.size_le
  have hsizeF := b₁.size_le
  have hsizeF' := b₂.size_le
  have hsize := b₃.size_le
  have hsizes : ∀ h hh, s₄.code.size ≤ (caught h hh).site.before.code.size ∧
      (caught h hh).site.before.code.size ≤ (caught h hh).site.after.code.size ∧
      (caught h hh).site.after.code.size ≤ z.code.size := fun h hh => by
    obtain ⟨-, -, gb, gc, hexit, -⟩ := hcaught h hh
    exact ⟨gb.size_le, gc.size_le, hexit.grows.size_le⟩
  have hglue : ∀ {x y : Nat}, s₀.code.size ≤ x → y ≤ a.after.code.size →
      (y ≤ s₂.code.size ∨ s₃.code.size ≤ x) →
      (∀ h hh, y ≤ (caught h hh).site.before.code.size ∨ (caught h hh).site.after.code.size ≤ x) →
      (y ≤ F.before.code.size ∨ F.after.code.size ≤ x) → Set.Ico x y ⊆ L.glue a := by
    intro x y hx hy ht hc hf n hn
    simp only [Set.mem_Ico] at hn
    have htried : ¬(s₂.code.size ≤ n ∧ n < s₃.code.size) := by omega
    have hfinal : ¬(F.before.code.size ≤ n ∧ n < F.after.code.size) := by omega
    refine ⟨⟨by omega, by omega⟩, htried, hfinal, fun h hh hin => ?_⟩
    have hin : (caught h hh).site.before.code.size ≤ n ∧
      n < (caught h hh).site.after.code.size := hin
    have := hc h hh
    omega
  have hbefore : Set.Ico s₀.code.size s₁.code.size ⊆ L.glue a :=
    hglue le_rfl (by omega) (by omega) (fun h hh => by have := hsizes h hh; omega) (by omega)
  have hleft : Set.Ico s₃.code.size s₄.code.size ⊆ L.glue a :=
    hglue (by omega) (by omega) (by omega) (fun h hh => .inl (hsizes h hh).1) (by omega)
  have hG : Set.Ico z.code.size F.before.code.size ∪ Set.Ico F.after.code.size a.after.code.size
      ⊆ L.glue a :=
    Set.union_subset
      (hglue (by omega) (by omega) (by omega) (fun h hh => .inr (hsizes h hh).2.2) (by omega))
      (hglue (by omega) le_rfl (by omega) (fun h hh => by have := hsizes h hh; omega) (by omega))
  replace hfromEntry := fun σ c hlabel h => (hfromEntry σ c hlabel h).mono hG
  replace hfromThrow := fun σ hlabel => (hfromThrow σ hlabel).mono hG
  have hroute : ∀ f : FinallyRoute, some ⟨entry, exit, false⟩ = some f →
      p.HasLabel f.entry ∧ p.HasLabel f.exit := fun f hf => by
    cases hf
    exact ⟨hentry, hexit⟩
  have hhold : ∀ h hh, p.Holds s₄ (caught h hh).site.before := fun h hh => by
    obtain ⟨-, -, -, gc, hexit, -⟩ := hcaught h hh
    exact hp.between hhandling.before (gc.trans (hexit.grows.trans r₉))
  have hjoins : L.Joins a (.numbered k) p := {
    places_tried := by
      refine hplaces.cons ?_ hroute
      cases handler with
      | none => exact hto
      | some m => exact ⟨_, ((hcaught m rfl).2.2.2.2.2 p (hhold m rfl)).1⟩
    places_caught := fun h hh => by
      obtain ⟨-, ⟨_, hctx⟩, -⟩ := hcaught h hh
      exact hctx ▸ hplaces.cons hto hroute
    places_final := hinner
    starts := fun σ hσ => by
      obtain ⟨τ, hτ, hrest⟩ :=
        clearPending_encodes hclear.own hnames (hclear.holds hp) (hσ.trans hsize₀.symm)
      exact ⟨τ, ⟨hτ.1.mono hbefore, hτ.2.trans hsize₂.symm⟩, hrest⟩
    tried := fun σ c harrives hencodes hquiet => guarded_finishes (B := B) rfl hleave.own
      (hleave.holds hp) hleft hentry hfromEntry hfromThrow harrives hencodes
      (hquiet.imp_left fun hnone => by rw [hnone]; rfl)
    handled := fun h hh v σ harrives => by
      obtain ⟨hcatch, henters⟩ := (hcaught h hh).2.2.2.2.2 p (hhold h hh)
      have hsize := hsizes h hh
      subst hh
      obtain ⟨hlabel, rfl⟩ := harrives
      obtain ⟨τ, hτ, hsame, htemp, hcleared⟩ := henters σ (hunique _ _ _ hlabel hcatch)
      refine ⟨τ, hτ.mono (hglue (by omega) (by omega) (by omega) (fun h' hh' => ?_) (by omega)),
        htemp, hsame, hcleared⟩
      cases hh'
      exact .inl le_rfl
    caught := fun h hh σ c harrives hencodes => by
      obtain ⟨-, ⟨_, hctx⟩, gb, gc, hleaves, -⟩ := hcaught h hh
      have hsize := hsizes h hh
      refine guarded_finishes (B := (caught h hh).site) hctx hleaves
        (hp.between (hhandling.before.trans (gb.trans gc)) r₉)
        (hglue (by omega) (by omega) (by omega) (fun h' hh' => ?_) (by omega)) hentry hfromEntry
        hfromThrow harrives hencodes (.inl rfl)
      cases hh.symm.trans hh'
      exact .inr le_rfl
    final := fun σ v harrives => by
      obtain ⟨ω, hω, -, hends⟩ := hfromInside σ v harrives
      exact ⟨ω, hω.mono hG, hends⟩ }
  exact ⟨hjoins.routes, fun σ hσ => hjoins.runsTry hof hnames hapart hσ⟩

/-- The fields of a new statement are apart from those of the regions around. -/
theorem routable_apart (h : ctx.Routable s) :
    ∀ f ∈ ctx.pending, f ∉ (PendingFields.numbered s.routedCount).refs ctx.leafName := by
  rintro f ⟨route, hroute, name', hname', heq⟩ ⟨name, hname, rfl⟩
  obtain ⟨n, hn, hfields⟩ := h.numbered route hroute
  cases heq
  rw [hfields] at hname'
  exact hn.ne (PendingFields.numbered_injective hname' hname)

theorem pendingFields_numbered (h : pendingFields ctx s = .ok fields s') :
    fields = .numbered s.routedCount ∧ s.SameCode s' ∧ s'.routedCount = s.routedCount + 1 := by
  cases h
  exact ⟨rfl, ⟨rfl, rfl, List.prefix_refl _, Nat.le_succ _⟩, rfl⟩

/-! ### Statements -/

/-- A suspending `try` statement of a resumable function is routed. -/
theorem lowerStmt_routedTry {block : List Stmt}
    {finalizer : Option (List Stmt)} {name : Option String}
    (a : Site (lowerStmt (.tryCatch block clause finalizer) name))
    (hresumable : a.ctx.isResumable)
    (hsuspends : Stmt.suspends (.tryCatch block clause finalizer)) :
    routedTry (lowerBody block) (clause.map lowerCatch) (finalizer.map lowerBody) a.ctx a.before
      = .ok () a.after := by
  have hrun : tryStatement (Stmt.suspends (.tryCatch block clause finalizer)) (lowerBody block)
      (clause.map lowerCatch) (finalizer.map lowerBody) a.ctx a.before = .ok () a.after := by
    rw [← a.run]
    rcases clause with _ | ⟨scope, param, body⟩ <;> cases finalizer <;> rfl
  replace hrun := read_ok hrun
  rw [hresumable, hsuspends] at hrun
  exact hrun

theorem routedTry_opens {final : Option (Lower Unit)}
    (h : routedTry block handler final ctx s = .ok () s') :
    ∃ start, s.SameCode start ∧ s.routedCount < start.routedCount ∧
      (∀ f, final = some f →
        routedFinally (.numbered s.routedCount) block handler f ctx start = .ok () s') ∧
      (∀ h, handler = some h → final = none →
        routedCatch (.numbered s.routedCount) block h ctx start = .ok () s') := by
  obtain ⟨fields, s₁, h₁, h⟩ := bind_ok h
  obtain ⟨rfl, hsame, hcount⟩ := pendingFields_numbered h₁
  obtain ⟨_, s₂, h₂, h⟩ := bind_ok h
  have hsame₂ : s₁.SameCode s₂ ∧ s₂.routedCount = s₁.routedCount := by
    cases h₂
    exact ⟨.of_eq rfl rfl rfl rfl, rfl⟩
  refine ⟨s₂, hsame.trans hsame₂.1, by omega, fun f hf => ?_, fun caught hcaught hf => ?_⟩
  · subst hf
    cases handler <;> exact h
  · subst hcaught hf
    exact h

/-- In a resumable function, a `try` statement that suspends and has a finalizer is made of parts
whose exceptions are routed, and its code behaves as such a statement. -/
theorem lowerStmt_routedParts {block body : List Stmt} {name : Option String}
    (a : Site (lowerStmt (.tryCatch block clause (some body)) name))
    (hresumable : a.ctx.isResumable)
    (hsuspends : Stmt.suspends (.tryCatch block clause (some body)) = true) (ha : a.Sound) :
    ∃ L : FinallySites (lowerBody block) (clause.map lowerCatch) (lowerBody body),
      L.RoutedParts a (.numbered a.before.routedCount) := by
  have hhandler : ∀ h, clause.map lowerCatch = some h → ∀ t, Growing (h t) := by
    intro h hh t
    obtain ⟨clause, rfl, rfl⟩ := Option.map_eq_some_iff.1 hh
    infer_instance
  obtain ⟨start, hstart, hcount, hrun, -⟩ :=
    routedTry_opens (lowerStmt_routedTry a hresumable hsuspends)
  exact routedFinally_parts a ha hstart (hrun _ rfl) hhandler hcount (routable_apart ha)

end Lower

end ScriptLowering
