import ScriptLowering.Proofs.Simulation.Statement

/-!
# Disciplines of single runs

A property of single runs is a simulation of each run by itself. A *discipline* says what a step of
the lowering may make of a session, depending on the frames around it, which temps it may be handed
and hands on, and in which sessions it may halt. It has to be checked for the basic steps; the
lowering of every part of the source then keeps to it.

Where every single change of a session is in order, so are most basic steps, and nothing is left to
check but what happens to exceptions and protected regions (`Discipline.Steady`). Where the
surroundings do not matter either, all basic steps are in order (`Discipline.Loose`).
-/

namespace ScriptLowering

/-- The temps of the arguments. -/
def Lower.Arguments.temps : Lower.Arguments → List Temp
  | .fixed values => values
  | .collected array => [array]

/-- The instruction hands an exception to the machine, or rejects the promise of the function. -/
def Instr.throwsOut : Instr → Bool
  | .raise _ | .asyncReject _ => true
  | _ => false

/-- The instruction neither suspends nor throws out. -/
def Instr.isCalm : Instr → Bool
  | .suspend .. => false
  | i => !i.throwsOut

/-- What a step may make of a session, the temps that can be used in a session, and how a run
halts. -/
structure Discipline where
  /-- Where the discipline is kept. -/
  fits : Context → Prop := fun _ => True
  leads : Context → Session → Session → Prop
  temps : Session → Temp → Prop := fun _ _ => True
  /-- In which sessions a run from a session may halt. -/
  halts : Session → Halt → Session → Prop := fun _ _ _ => True
  refl : ∀ ctx s, leads ctx s s
  trans : ∀ {ctx s s₁ s'}, leads ctx s s₁ → leads ctx s₁ s' → leads ctx s s'
  temps_mono : ∀ {ctx s s' t}, leads ctx s s' → temps s t → temps s' t := by intros; assumption
  halts_mono : ∀ {ctx s s₁ halt s'}, leads ctx s s₁ → halts s₁ halt s' → halts s halt s' := by
    intros; assumption
  inside : ∀ {ctx} frames, fits ctx → fits { ctx with frames := frames ++ ctx.frames } := by
    intros; assumption
  insideBlock : ∀ {ctx} block, fits ctx → fits { ctx with blocks := block :: ctx.blocks } := by
    intros; assumption
  tree? : Option ScopeTree := none
  pauses : Bool := true

/-- Two sessions that come from the same one are the same if their other tables are. -/
theorem Session.KeepsCode.eq_of_tables {s t t' : Session} (h : s.KeepsCode t) (h' : s.KeepsCode t')
    (htables : t.SameTables t') : t = t' := by
  obtain ⟨⟩ := t
  obtain ⟨⟩ := t'
  obtain ⟨rfl, rfl, rfl, rfl, rfl, rfl⟩ := h
  obtain ⟨rfl, rfl, rfl, rfl, rfl, rfl⟩ := h'
  obtain ⟨rfl, rfl, rfl, rfl, rfl, rfl, rfl, rfl⟩ := htables
  rfl

namespace Discipline

open Lower Simulation

/-- Each run by itself. -/
def simulation (G : Discipline) : Simulation where
  World := Session
  contexts ctx ctx' := ctx = ctx' ∧ G.fits ctx
  sessions w s s' := w = s ∧ s = s'
  temps w t t' := t = t' ∧ G.temps w t
  leads := G.leads
  halts w halt s s' := s = s' ∧ G.halts w halt s
  refl := G.refl
  trans := G.trans
  temps_mono hleads h := ⟨h.1, G.temps_mono hleads h.2⟩
  halts_mono hleads h := ⟨h.1, G.halts_mono hleads h.2⟩
  arity {ctx _} h := ⟨ctx.fixedArity, h.1.symm⟩
  inside frames h := ⟨by rw [h.1], G.inside frames h.2⟩
  insideBlock block h := ⟨by rw [h.1], G.insideBlock block h.2⟩
  tree? := G.tree?
  pauses := G.pauses

/-! ### Computations -/

section Keeps

variable {G : Discipline} {α β : Type} {T T' : List Temp} {R : α → List Temp} {R' : β → List Temp}
  {m : Lower α} {f : α → Lower β} {D : Pairing}

/-- If the temps of the list can be used, the computation keeps to the discipline, and the temps of
its result can be used. -/
def Keeps (G : Discipline) (T : List Temp) (R : α → List Temp) (m : Lower α) : Prop :=
  ∀ ⦃ctx : Context⦄ ⦃s : Session⦄, G.fits ctx → (∀ t ∈ T, G.temps s t) →
    match m ctx s with
    | .ok a s' => G.leads ctx s s' ∧ ∀ t ∈ R a, G.temps s' t
    | .error halt s' => G.halts s halt s'

namespace Keeps

variable {ctx : Context} {s s' : Session}

theorem ok (h : G.Keeps T R m) {a : α} (hctx : G.fits ctx)
    (hT : ∀ t ∈ T, G.temps s t) (hrun : m ctx s = .ok a s') :
    G.leads ctx s s' ∧ ∀ t ∈ R a, G.temps s' t := by
  have hends := h hctx hT
  rwa [hrun] at hends

theorem error (h : G.Keeps T R m) {halt : Halt} (hctx : G.fits ctx)
    (hT : ∀ t ∈ T, G.temps s t) (hrun : m ctx s = .error halt s') : G.halts s halt s' := by
  have hends := h hctx hT
  rwa [hrun] at hends

/-- A computation that succeeds. -/
theorem of_ok {g : Session → α × Session}
    (h : ∀ ⦃ctx s⦄, (∀ t ∈ T, G.temps s t) → G.leads ctx s (g s).2 ∧ ∀ t ∈ R (g s).1, G.temps (g s).2 t) :
    G.Keeps T R (modifyGet g) :=
  fun _ _ _ hT => h hT

/-- Where runs may halt in any way, only those that succeed matter. -/
theorem of_run (hhalts : ∀ s halt s', G.halts s halt s')
    (h : ∀ {ctx s a s'}, (∀ t ∈ T, G.temps s t) → m ctx s = .ok a s' →
      G.leads ctx s s' ∧ ∀ t ∈ R a, G.temps s' t) : G.Keeps T R m := by
  intro ctx s _ hT
  split
  · exact h hT ‹_›
  · exact hhalts _ _ _

theorem pure {a : α} (h : R a ⊆ T) : G.Keeps T R (pure a) :=
  fun ctx s _ hT => ⟨G.refl ctx s, fun t ht => hT t (h ht)⟩

/-- One step after the other. -/
theorem bind (hm : G.Keeps T R m) (hf : ∀ a, G.Keeps (R a ++ T) R' (f a)) : G.Keeps T R' (m >>= f) := by
  intro ctx s hctx hT
  cases hrun : m ctx s with
  | error halt s₁ =>
    rw [bind_halt hrun]
    exact hm.error hctx hT hrun
  | ok a s₁ =>
    rw [bind_run hrun]
    obtain ⟨hleads, hR⟩ := hm.ok hctx hT hrun
    have hsecond := hf a (s := s₁) hctx fun t ht => (List.mem_append.1 ht).elim (hR t)
      fun ht => G.temps_mono hleads (hT t ht)
    split
    · rename_i b s₂ hrun'
      rw [hrun'] at hsecond
      exact ⟨G.trans hleads hsecond.1, hsecond.2⟩
    · rename_i halt s₂ hrun'
      rw [hrun'] at hsecond
      exact G.halts_mono hleads hsecond

theorem read_bind {f : Context → Lower β} (h : ∀ ctx, G.Keeps T R' (f ctx)) :
    G.Keeps T R' (read >>= f) :=
  fun ctx _ hctx hT => h ctx hctx hT

theorem get_bind {f : Session → Lower β} (h : ∀ s, G.Keeps T R' (f s)) : G.Keeps T R' (get >>= f) :=
  fun _ s hctx hT => h s hctx hT

/-- What keeps to the discipline follows the simulation. -/
theorem relates [Linkable α] {m' : Lower α} (h : G.Keeps (D.map Prod.fst) R m)
    (heq : (∀ p ∈ D, p.1 = p.2) → m = m')
    (hR : ∀ a E, (∀ t ∈ R a, (t, t) ∈ E) → Linked E a a) : G.simulation.Relates D m m' := by
  rintro ctx _ w s _ ⟨rfl, hctx⟩ ⟨rfl, rfl⟩ hD
  obtain rfl := heq fun p hp => (hD p hp).1
  have hT : ∀ t ∈ D.map Prod.fst, G.temps w t := by
    intro t ht
    obtain ⟨p, hp, rfl⟩ := List.mem_map.1 ht
    exact (hD p hp).2
  cases hrun : m ctx w with
  | ok a s' =>
    obtain ⟨hleads, hresult⟩ := h.ok hctx hT hrun
    refine Ends.ok (Φ := G.simulation) s' ((R a).map fun t => (t, t)) hleads ⟨rfl, rfl⟩
      (fun p hp => ?_) (hR a _ fun t ht => List.mem_map.2 ⟨t, ht, rfl⟩)
    obtain ⟨t, ht, rfl⟩ := List.mem_map.1 hp
    exact ⟨rfl, hresult t ht⟩
  | error halt s' => exact Ends.error (Φ := G.simulation) ⟨rfl, h.error hctx hT hrun⟩

/-- A step that hands on no temp. -/
theorem relates_same {m' : Lower α} (h : G.Keeps (D.map Prod.fst) R m)
    (heq : (∀ p ∈ D, p.1 = p.2) → m = m') : @Relates α sameLink G.simulation D m m' :=
  @relates _ _ _ _ D sameLink _ h heq fun _ _ _ => rfl

/-- A step that hands on a temp. -/
theorem relates_temp {m m' : Lower Temp} (h : G.Keeps (D.map Prod.fst) (fun t => [t]) m)
    (heq : (∀ p ∈ D, p.1 = p.2) → m = m') : G.simulation.Relates D m m' :=
  h.relates heq fun _ _ ht => ht _ (.head _)

/-- What follows the simulation keeps to the discipline. -/
theorem of_relates [Linkable α] (h : G.simulation.Relates (T.map fun t => (t, t)) m m)
    (hR : ∀ {a E}, Linked E a a → ∀ t ∈ R a, (t, t) ∈ E) : G.Keeps T R m := by
  intro ctx s hctx hT
  have hends := h (w := s) ⟨Eq.refl ctx, hctx⟩ ⟨Eq.refl s, rfl⟩ fun p hp => by
    obtain ⟨t, ht, rfl⟩ := List.mem_map.1 hp
    exact ⟨rfl, hT t ht⟩
  cases hrun : m ctx s with
  | ok a s' =>
    rw [hrun] at hends
    cases hends with
    | ok w E hleads hs hE hlinked =>
      obtain rfl : w = s' := hs.1
      exact ⟨hleads, fun t ht => (hE (t, t) (hR hlinked t ht)).2⟩
  | error halt s' =>
    rw [hrun] at hends
    cases hends with
    | error hhalts => exact hhalts.2

theorem of_same (h : @Relates α sameLink G.simulation (T.map fun t => (t, t)) m m) :
    G.Keeps T (fun _ => []) m :=
  @of_relates _ _ _ _ _ sameLink h fun _ _ ht => absurd ht List.not_mem_nil

theorem of_temp {m : Lower Temp} (h : G.simulation.Relates (T.map fun t => (t, t)) m m) :
    G.Keeps T (fun t => [t]) m :=
  of_relates h fun h _ ht => List.mem_singleton.1 ht ▸ h

end Keeps

end Keeps

/-! ### Laws -/

/-- The discipline lets frames, tables and a decline alone. -/
structure Open (G : Discipline) : Prop where
  within : ∀ {ctx frame s s'}, frame.isNative = false →
    G.leads { ctx with frames := frame :: ctx.frames } s s' → G.leads ctx s s'
  withinBlock : ∀ {ctx block s s'},
    G.leads { ctx with blocks := block :: ctx.blocks } s s' → G.leads ctx s s'
  aside : ∀ {s s'} ctx, s.KeepsCode s' → G.leads ctx s s'
  declined : ∀ s reason, G.halts s (.declined reason)
    { s with events := s.events.push (.declined reason) }
  tree : ∀ {ctx tree}, G.fits ctx → G.tree? = some tree → ctx.tree = tree
  resumable : ∀ {ctx}, G.fits ctx → G.pauses = false → ctx.isResumable = true
  closed : ∀ {tree}, G.tree? = some tree → tree.Closed
  dangling : G.tree? = none → ∀ s, G.halts s .dangling s

/-- The basic steps keep to the discipline, but for the start of a routed `try`. -/
structure Plain (G : Discipline) : Prop extends G.Open where
  define : ∀ {T storage op}, op.uses ⊆ T → G.Keeps T (fun t => [t]) (define storage op)
  perform : ∀ {T effect}, effect.uses ⊆ T → G.Keeps T (fun _ => []) (perform effect)
  bare : ∀ {T i}, i.isBare = true → G.Keeps T (fun _ => []) (emit i)
  branchIf : ∀ {T expected t l}, t ∈ T → G.Keeps T (fun _ => []) (branchIf expected t l)
  ret : ∀ {T t}, t ∈ T → G.Keeps T (fun _ => []) (emit (.ret t))
  asNumber : ∀ {T t}, t ∈ T → G.Keeps T (fun t => [t]) (asNumber t)
  call : ∀ {T args} form, args.temps ⊆ T → form.temps ⊆ T →
    G.Keeps T (fun t => [t]) (emitCall args (CallForm.fixed form) form.packed)
  pause : ∀ {T kind t label reject}, G.pauses = true → t ∈ T →
    G.Keeps T (fun t => [t]) (pause kind t label reject)
  resumePoint : ∀ {T label}, G.Keeps T (fun _ => []) (addResumePoint label none .reject)
  throwValue : ∀ {T t}, t ∈ T → G.Keeps T (fun _ => []) (throwValue t)
  protect : ∀ {T r inner frame range handler}, (∀ f ∈ inner, f.isNative = false) →
    G.Keeps [] (fun _ => []) range → G.Keeps [] (fun _ => []) handler →
    G.Keeps T (fun _ => []) (protect r inner frame range handler)

/-- The basic steps keep to the discipline. -/
structure Lawful (G : Discipline) : Prop extends G.Plain where
  openRoute : ∀ {T}, G.Keeps T (fun _ => []) openRoute

variable {G : Discipline} {D : Pairing}

section Linked

variable (hD : ∀ p ∈ D, p.1 = p.2)

include hD

theorem temp_eq {t t' : Temp} (h : (t, t') ∈ D) : t = t' :=
  hD (t, t') h

theorem eq_of_linked {l l' : List Temp} (h : Linked D l l') : l = l' := by
  have hall : List.Forall₂ Eq l l' := h.imp fun t t' ht => hD (t, t') ht
  exact List.forall₂_eq_eq_eq ▸ hall

theorem operation_eq {op op' : Operation} (h : op.Linked D op') : op = op' := by
  rw [← h.same, ← eq_of_linked hD h.uses, Operation.withUses_uses]

theorem effect_eq {effect effect' : Effect} (h : effect.Linked D effect') : effect = effect' := by
  rw [← h.same, ← eq_of_linked hD h.uses, Effect.withUses_uses]

theorem arguments_eq {args args' : Arguments} (h : Linked D args args') : args = args' := by
  cases args <;> cases args'
  case fixed.fixed => exact congrArg Arguments.fixed (eq_of_linked hD h)
  case collected.collected => exact congrArg Arguments.collected (hD _ h)
  all_goals exact h.elim

theorem form_eq {form form' : CallForm} (h : form.Linked D form') : form = form' := by
  cases form <;> cases form'
  case value.value => exact congrArg₂ CallForm.value (hD _ h.1) (hD _ h.2)
  case member.member => exact congrArg₂ CallForm.member (hD _ h.1) h.2
  all_goals exact h.elim

end Linked

theorem mem_left {t t' : Temp} (h : (t, t') ∈ D) : t ∈ D.map Prod.fst :=
  List.mem_map.2 ⟨(t, t'), h, rfl⟩

theorem subset_left {l l' : List Temp} (h : Linked D l l') : l ⊆ D.map Prod.fst := by
  intro t ht
  obtain ⟨n, hn, rfl⟩ := List.mem_iff_getElem.1 ht
  exact mem_left (List.Forall₂.get h hn (List.Forall₂.length_eq h ▸ hn))

theorem arguments_left {args args' : Arguments} (h : Linked D args args') :
    args.temps ⊆ D.map Prod.fst := by
  cases args <;> cases args'
  case fixed.fixed => exact subset_left h
  case collected.collected => exact List.cons_subset.2 ⟨mem_left h, List.nil_subset _⟩
  all_goals exact h.elim

theorem form_left {form form' : CallForm} (h : form.Linked D form') : form.temps ⊆ D.map Prod.fst := by
  cases form <;> cases form'
  case value.value =>
    exact List.cons_subset.2 ⟨mem_left h.1, List.cons_subset.2 ⟨mem_left h.2, List.nil_subset _⟩⟩
  case member.member => exact List.cons_subset.2 ⟨mem_left h.1, List.nil_subset _⟩
  all_goals exact h.elim

/-- A lawful discipline is a lawful simulation. -/
theorem Plain.simulation (h : G.Plain) : G.simulation.Plain where
  within hframe hleads := h.within hframe hleads
  withinBlock hleads := h.withinBlock hleads
  tables := by
    rintro w s _ ⟨-, rfl⟩
    exact ⟨rfl, rfl, rfl, rfl, rfl, rfl, rfl, rfl⟩
  aside := by
    rintro w s _ t t' ctx ⟨rfl, rfl⟩ hkeeps hkeeps' htables
    exact ⟨t, h.aside ctx hkeeps, rfl, hkeeps.eq_of_tables hkeeps' htables⟩
  storage := by
    rintro w s _ t _ ⟨-, rfl⟩ ⟨rfl, -⟩
    rfl
  define hop := (h.define (subset_left hop.uses)).relates_temp fun hD => by rw [operation_eq hD hop]
  perform heffect := (h.perform (subset_left heffect.uses)).relates_same fun hD => by
    rw [effect_eq hD heffect]
  bare hi := (h.bare hi).relates_same fun _ => rfl
  branchIf ht := (h.branchIf (mem_left ht)).relates_same fun hD => by rw [temp_eq hD ht]
  ret ht := (h.ret (mem_left ht)).relates_same fun hD => by rw [temp_eq hD ht]
  asNumber ht := (h.asNumber (mem_left ht)).relates_temp fun hD => by rw [temp_eq hD ht]
  call form _ hargs hform :=
    (h.call form (arguments_left hargs) (form_left hform)).relates_temp fun hD => by
      rw [arguments_eq hD hargs, form_eq hD hform]
  pause hpause ht := (h.pause hpause (mem_left ht)).relates_temp fun hD => by rw [temp_eq hD ht]
  resumePoint := @fun _ _ => h.resumePoint.relates_same fun _ => rfl
  throwValue ht := (h.throwValue (mem_left ht)).relates_same fun hD => by rw [temp_eq hD ht]
  protect hinner hrange hhandler :=
    (h.protect hinner (.of_same (hrange [])) (.of_same (hhandler []))).relates_same fun _ => rfl
  declined := by
    rintro w s _ reason ⟨rfl, rfl⟩
    exact ⟨rfl, h.declined w reason⟩
  tree hctx _ htree := h.tree hctx.2 htree
  resumable hctx hpauses := h.resumable hctx.2 hpauses
  closed _ htree := h.closed htree
  dangling := by
    rintro w s _ htree ⟨rfl, rfl⟩
    exact ⟨rfl, h.dangling htree w⟩

theorem Lawful.simulation (h : G.Lawful) : G.simulation.Lawful where
  toPlain := h.toPlain.simulation
  openRoute := @fun _ => h.openRoute.relates_same fun _ => rfl

/-! ### Single changes -/

/-- Every single change of a session is in order, unless an exception is thrown out or the run is
one that must not suspend. -/
structure Steady (G : Discipline) : Prop extends G.Open where
  allocate : ∀ {ctx s storage}, G.leads ctx s { s with temps := s.temps.push storage }
  fresh : ∀ {s : Session} {storage}, G.temps { s with temps := s.temps.push storage } ⟨s.temps.size⟩
  emit : ∀ {ctx s i}, i.isCalm = true → G.leads ctx s { s with code := s.code.push i }
  suspend : ∀ {ctx s kind t state label result reject}, G.pauses = true →
    G.leads ctx s { s with code := s.code.push (.suspend kind t state label result reject) }
  fuse : ∀ {ctx s t left right}, justAdded? s t = some (left, right) →
    G.leads ctx s (fuseAddition t left right s)
  resumePoint : ∀ {ctx s p}, G.leads ctx s { s with resumePoints := s.resumePoints.push p }
  /-- Where nothing may be missing, the temps that can be used are in the table. -/
  entered : ∀ {s t}, G.tree? ≠ none → G.temps s t → t.index < s.temps.size

namespace Steady

variable {T : List Temp} {t : Temp} {i : Instr} (h : G.Steady)

include h

theorem emit_keeps (hi : i.isCalm = true) : G.Keeps T (fun _ => []) (Lower.emit i) :=
  .of_ok fun _ _ _ => ⟨h.emit hi, by simp⟩

theorem freshTemp_keeps (storage : Storage) : G.Keeps T (fun t => [t]) (freshTemp storage) :=
  .of_ok fun _ _ _ => ⟨h.allocate, List.forall_mem_singleton.2 h.fresh⟩

theorem define_keeps (storage : Storage) (op : Operation) :
    G.Keeps T (fun t => [t]) (Lower.define storage op) :=
  (h.freshTemp_keeps storage).bind fun _ => (h.emit_keeps rfl).bind fun _ => .pure (by simp)

omit h in
theorem storageOf_keeps (t : Temp) : G.Keeps T (fun _ => []) (storageOf t) :=
  .get_bind fun _ => .pure (by simp)

theorem asObject_keeps (ht : t ∈ T) : G.Keeps T (fun t => [t]) (asObject t) := by
  refine (storageOf_keeps t).bind fun storage => ?_
  split
  · exact .pure (by simpa using ht)
  · exact h.define_keeps _ _

theorem asNumber_keeps (ht : t ∈ T) : G.Keeps T (fun t => [t]) (asNumber t) := by
  refine (storageOf_keeps t).bind fun storage => ?_
  split
  · exact .pure (by simpa using ht)
  intro ctx s hctx hT
  have htemp : G.temps s t := hT t (by simpa using ht)
  rw [bind_run (m := get) (a := s) rfl]
  cases hadded : justAdded? s t with
  | none => exact h.define_keeps _ _ hctx hT
  | some operands =>
    dsimp only
    rw [bind_run (m := get) (a := s) rfl]
    cases hentry : s.temps[t.index]? with
    | none =>
      refine h.dangling (by_contra fun htree => ?_) s
      exact absurd (h.entered htree htemp) (Nat.not_lt.2 (Array.getElem?_eq_none_iff.1 hentry))
    | some entry =>
      have hleads : G.leads ctx s (fuseAddition t operands.1 operands.2 s) := h.fuse hadded
      exact ⟨hleads, List.forall_mem_singleton.2 (G.temps_mono hleads htemp)⟩

theorem emitCall_keeps (args : Arguments) (fixed : List Temp → Operation)
    (withArray : Temp → Operation) : G.Keeps T (fun t => [t]) (emitCall args fixed withArray) := by
  refine (h.freshTemp_keeps _).bind fun result => .read_bind fun ctx => ?_
  cases args with
  | collected array => exact (h.emit_keeps rfl).bind fun _ => .pure (by simp)
  | fixed values =>
    dsimp only
    split
    · exact (h.emit_keeps rfl).bind fun _ => .pure (by simp)
    · exact (h.define_keeps _ _).bind fun _ => (h.emit_keeps rfl).bind fun _ => .pure (by simp)

theorem stateField_keeps (name : String) : G.Keeps T (fun _ => []) (stateField name) := by
  refine Keeps.bind (R := fun _ => []) (.of_ok (g := fun s => ((), _)) fun ctx s _ => ?_) fun _ =>
    .read_bind fun _ => .pure (by simp)
  refine ⟨h.aside ctx ?_, by simp⟩
  dsimp only
  split <;> exact ⟨rfl, rfl, rfl, rfl, rfl, rfl⟩

theorem resumePoint_keeps (label : Label) (result : Option Temp) (kind : ResumeKind) :
    G.Keeps T (fun _ => []) (addResumePoint label result kind) :=
  .of_ok fun _ _ _ => ⟨h.resumePoint, by simp⟩

theorem pause_keeps (hpause : G.pauses = true) (kind : SuspendKind) (t : Temp) (label : Label)
    (reject : Option RejectRoute) : G.Keeps T (fun t => [t]) (Lower.pause kind t label reject) :=
  (h.freshTemp_keeps _).bind fun _ => (h.resumePoint_keeps _ _ _).bind fun _ =>
    Keeps.bind (R := fun _ => []) (.of_ok fun _ _ _ => ⟨h.suspend hpause, by simp⟩) fun _ =>
      (h.emit_keeps rfl).bind fun _ => .pure (by simp)

/-- An exception is recorded where the innermost region is a routed one, and thrown out
elsewhere. -/
theorem throwValue_keeps (ht : t ∈ T) (hraise : ∀ {ctx s i}, i.throwsOut = true →
      (∀ route, Frame.innermostRegion? ctx.frames ≠ some (.routed route)) →
      G.leads ctx s { s with code := s.code.push i }) : G.Keeps T (fun _ => []) (throwValue t) := by
  refine (h.asObject_keeps ht).bind fun value ctx s hctx hT => ?_
  have hthrow : ∀ {i}, i.throwsOut = true →
      (∀ route, Frame.innermostRegion? ctx.frames ≠ some (.routed route)) →
      G.leads ctx s { s with code := s.code.push i } ∧
        ∀ t ∈ ([] : List Temp), G.temps { s with code := s.code.push i } t :=
    fun hi hregion => ⟨hraise hi hregion, nofun⟩
  rw [bind_run (m := read) (a := ctx) rfl]
  cases hregion : Frame.innermostRegion? ctx.frames with
  | none => exact hthrow (by split <;> rfl) (by simp [hregion])
  | some region =>
    cases region with
    | routed route =>
      exact Keeps.bind (R := fun _ => []) ((h.stateField_keeps _).bind fun _ => h.emit_keeps rfl)
        (fun _ => h.emit_keeps rfl) hctx hT
    | _ => exact hthrow (i := .raise value) rfl (by simp [hregion])

theorem plain (hthrow : ∀ {T t}, t ∈ T → G.Keeps T (fun _ => []) (throwValue t))
    (hprotect : ∀ {T r inner frame range handler}, (∀ f ∈ inner, f.isNative = false) →
      G.Keeps [] (fun _ => []) range → G.Keeps [] (fun _ => []) handler →
      G.Keeps T (fun _ => []) (Lower.protect r inner frame range handler)) : G.Plain where
  toOpen := h.toOpen
  define _ := h.define_keeps _ _
  perform _ := h.emit_keeps rfl
  bare {_ i} hi := h.emit_keeps (by cases i <;> first | rfl | cases hi)
  branchIf _ := h.emit_keeps rfl
  ret _ := h.emit_keeps rfl
  asNumber := h.asNumber_keeps
  call _ _ _ := h.emitCall_keeps _ _ _
  pause hpause _ := h.pause_keeps hpause _ _ _ _
  resumePoint := @fun _ _ => h.resumePoint_keeps _ _ _
  throwValue := hthrow
  protect := hprotect

end Steady

/-- Every single change of a session is in order, whatever is around the code. -/
structure Loose (G : Discipline) : Prop extends G.Steady where
  anywhere : ∀ {ctx ctx' s s'}, G.leads ctx s s' → G.leads ctx' s s'
  raise : ∀ {ctx s i}, i.throwsOut = true → G.leads ctx s { s with code := s.code.push i }
  region : ∀ {ctx s r}, G.leads ctx s { s with regions := s.regions.push r }

theorem Loose.protect_keeps (h : G.Loose) {T : List Temp} {r : ExceptionRegion} {inner : List Frame}
    {frame : Frame} {range handler : Lower Unit} (hrange : G.Keeps [] (fun _ => []) range)
    (hhandler : G.Keeps [] (fun _ => []) handler) :
    G.Keeps T (fun _ => []) (protect r inner frame range handler) := by
  have hwithin : ∀ (frames : List Frame) {m : Lower Unit}, G.Keeps [] (fun _ => []) m →
      G.Keeps T (fun _ => []) (withinAll frames m) := by
    intro frames m hm ctx s hctx _
    have hends := hm (G.inside frames hctx) (s := s) nofun
    unfold withinAll
    split
    · rename_i hrun
      rw [hrun] at hends
      exact ⟨h.anywhere hends.1, nofun⟩
    · rename_i hrun
      rwa [hrun] at hends
  refine (hwithin _ ((h.emit_keeps rfl).bind fun _ => hrange)).bind fun _ => (h.emit_keeps rfl).bind fun _ =>
    Keeps.bind (R := fun _ => []) (hwithin [frame] hhandler) fun _ =>
      (h.emit_keeps rfl).bind fun _ => .of_ok fun _ _ _ => ⟨h.region, nofun⟩

theorem Loose.plain (h : G.Loose) : G.Plain :=
  h.toSteady.plain (fun ht => h.throwValue_keeps ht fun hi _ => h.raise hi) fun _ => h.protect_keeps

end Discipline

end ScriptLowering
