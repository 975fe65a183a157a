import ScriptLowering.Compile
import ScriptLowering.Proofs.Simulation.Discipline
import ScriptLowering.Proofs.StateName

/-!
# What is reported

A compilation reports its start, then each `try` that it routes through state fields, and at last
either that the body is declined and why, or that it is lowered and what the passes have done.
Nothing else is reported, and nothing twice: the caller can rely on one reason for each declined
body.

Most of the lowering reports nothing. That is a property of the basic steps, which all other steps
are made of, so it is proved as a simulation (`silent`) that leaves out the start of a routed `try`.
A routed `try` is what statements are charged for (`Simulation.Tally`), so the reports are counted
by the costs of the statements.

## Main results

* `Lower.functionCode_reports`: what the lowering of the code of a function reports;
* `Function.compile_reports`: what a compilation reports.
-/

namespace ScriptLowering

/-! ### Sessions -/

/-- What is reported of the routed `try` with the given number. -/
def Event.routing (n : Nat) : Event :=
  .routed (PendingFields.numbered n).exception

namespace Session

/-- `n` more statements are routed, and each of them has been reported. -/
structure Routes (n : Nat) (s s' : Session) : Prop where
  count : s'.routedCount = s.routedCount + n
  events : s'.events.toList = s.events.toList ++ (List.range' s.routedCount n).map Event.routing

variable {s s₁ s' : Session} {n k : Nat}
variable {halt : Halt}

theorem Routes.of_eq (hcount : s'.routedCount = s.routedCount) (hevents : s'.events = s.events) :
    s.Routes 0 s' :=
  ⟨hcount, by simp [hevents]⟩

theorem Routes.refl (s : Session) : s.Routes 0 s :=
  .of_eq rfl rfl

theorem Routes.trans (h : s.Routes n s₁) (h' : s₁.Routes k s') : s.Routes (n + k) s' := by
  refine ⟨by rw [h'.count, h.count, Nat.add_assoc], ?_⟩
  rw [h'.events, h.events, h.count, List.append_assoc, ← List.map_append, List.range'_append_1]

/-- How a computation halts that routes `n` statements at most. A decline is reported itself, as the
last event. -/
inductive Halts (n : Nat) (s : Session) : Halt → Session → Prop
  | declined {k : Nat} {s' : Session} {reason : Decline} (hk : k ≤ n) (h : s.Routes k s') :
      Halts n s (.declined reason) { s' with events := s'.events.push (.declined reason) }
  | dangling {s' : Session} : Halts n s .dangling s'

/-- What was reported before. -/
theorem Halts.of_routes (h : s.Routes n s₁) (h' : s₁.Halts k halt s') : s.Halts (n + k) halt s' := by
  cases h' with
  | declined hk h' => exact .declined (Nat.add_le_add_left hk n) (h.trans h')
  | dangling => exact .dangling

theorem Halts.mono (hk : k ≤ n) (h : s.Halts k halt s') : s.Halts n halt s' := by
  cases h with
  | declined hk' h => exact .declined (hk'.trans hk) h
  | dangling => exact .dangling

end Session

namespace Lower

open Simulation

/-! ### Silent steps -/

/-- A run that routes nothing. -/
def silent : Discipline where
  leads _ s s' := s.Routes 0 s'
  halts s halt s' := s.Halts 0 halt s'
  refl _ := .refl
  trans h h' := h.trans h'
  halts_mono hleads h := .of_routes hleads h

/-- No single change of a session has to do with events. -/
theorem silent_loose : silent.Loose where
  within _ h := h
  withinBlock h := h
  aside _ h := .of_eq h.routedCount h.events
  allocate := .of_eq rfl rfl
  fresh := trivial
  emit _ := .of_eq rfl rfl
  suspend _ := .of_eq rfl rfl
  fuse _ := .of_eq rfl rfl
  resumePoint := .of_eq rfl rfl
  entered h := absurd rfl h
  declined s _ := .declined le_rfl (.refl s)
  tree _ := nofun
  resumable _ := nofun
  closed := nofun
  dangling _ _ := .dangling
  anywhere h := h
  raise _ := .of_eq rfl rfl
  region := .of_eq rfl rfl

/-- The basic steps are silent, but for the start of a routed `try`. -/
instance silent_plain : silent.simulation.Plain :=
  silent_loose.plain.simulation

/-! ### Routed statements -/

/-- The account of the statements that are routed. -/
def routing : Tally silent.simulation where
  leads _ n s s' := s.Routes n s'
  of_leads h := h
  trans := .trans
  temps_mono _ h := h

/-- The start of a routed `try` is the one step that reports it. -/
instance routing_lawful : routing.Lawful where
  within _ h := h
  withinBlock h := h
  openRoute {D} := by
    rintro ctx _ s _ _ ⟨rfl, -⟩ ⟨rfl, rfl⟩ -
    exact .ok (Ψ := routing) _ [] ⟨rfl, Array.toList_push⟩ ⟨rfl, rfl⟩ nofun rfl
  protect _ hrange hhandler := by
    refine Tally.protect_costs id (fun _ => place_relates _) ?_ hrange hhandler
    rintro ctx _ s _ _ ⟨rfl, -⟩ ⟨rfl, rfl⟩ -
    exact .ok (Φ := silent.simulation) _ [] (silent_loose.region : silent.leads ctx s _) ⟨rfl, rfl⟩ nofun rfl

/-- The code of a function reports the routed `try` statements of the function. -/
theorem functionCode_reports (ctx : Context) (s : Session) :
    match functionCode ctx.function ctx s with
    | .ok _ s' => s.Routes ctx.function.routes s'
    | .error halt s' => s.Halts ctx.function.routes halt s' := by
  have hends : routing.Ends ctx ctx.function.routes s (functionCode ctx.function ctx s)
      (functionCode ctx.function ctx s) :=
    functionCode_costs (resolves_of_none rfl rfl ctx.function) [] ⟨rfl, trivial⟩ ⟨rfl, rfl⟩ nofun
  cases hrun : functionCode ctx.function ctx s with
  | ok a s' =>
    rw [hrun] at hends
    cases hends with
    | ok w' _ hroutes hs => exact hs.1 ▸ hroutes
  | error halt s' =>
    rw [hrun] at hends
    cases hends with
    | error w' hk hroutes hhalts => exact .mono hk (.of_routes hroutes hhalts.2)

end Lower

/-! ### Functions -/

/-- The passes keep the name of a body. -/
theorem Body.name_optimize (b : Body) (registry : Registry) (options : Options) :
    (b.optimize registry options).1.name = b.name := by
  have hnormalize (b : Body) : b.normalizeTypes.1.name = b.name := by
    dsimp only [Body.normalizeTypes, TypeNormalization.compactSlots]
    split <;> rfl
  have hpass (b : Body) (isEnabled : Bool) (pass : Body → Body × Nat)
      (h : (pass b).1.name = b.name) : (b.passIf isEnabled pass).1.name = b.name := by
    unfold Body.passIf
    split
    · exact h
    · rfl
  calc (b.optimize registry options).1.name
      = ((b.passIf options.reuseCoercions Body.reuseCoercions).1.passIf options.normalizeTypes
          Body.normalizeTypes).1.name :=
        hpass _ options.bindMemberCalls (fun b => b.bindMemberCalls registry) rfl
    _ = (b.passIf options.reuseCoercions Body.reuseCoercions).1.name := hpass _ _ _ (hnormalize _)
    _ = b.name := hpass _ _ _ rfl

/-- A line of the log: how prominent the event is, and the event in words. -/
def Event.line (e : Event) : Level × String :=
  (e.level, e.message)

namespace Function

/-- What is reported first: the start, and the first `n` routed `try` statements with the fields for
their pending exceptions, of which all but the first are numbered. -/
def opening (f : Function) (n : Nat) : List Event :=
  .started f.name f.isResumable ::
    (List.range n).map fun i => .routed ("_pendingException" ++ if i = 0 then "" else toString i)

variable {f : Function} {tree : ScopeTree} {registry : Registry} {options : Options}

theorem map_line_opening (f : Function) (n : Nat) : (f.opening n).map Event.line =
    (.debug, "lowering function body") ::
      List.replicate n (.trace, "routing try region through state fields") := by
  simp only [opening, List.map_cons, List.map_map]
  refine congrArg _ (List.eq_replicate_iff.2 ⟨by simp, fun line hline => ?_⟩)
  obtain ⟨i, -, rfl⟩ := List.mem_map.1 hline
  rfl

/-- The events of a session that the code of the function has led to. -/
theorem events_of_routes {s : Session} {n : Nat}
    (h : Session.Routes n { events := #[.started f.name f.isResumable] } s) :
    s.events.toList = f.opening n := by
  rw [h.events, ← List.range_eq_range']
  rfl

theorem length_fillDispatch (points : List ResumePoint) (code : List Instr) :
    (fillDispatch points code).length = code.length := by
  unfold fillDispatch
  split <;> rfl

theorem length_toBody (s : Session) (f : Function) : (s.toBody f).code.length = s.code.size := by
  unfold Session.toBody
  dsimp only
  split
  · rw [length_fillDispatch, Array.length_toList]
  · exact Array.length_toList

/-- What the lowering of a function reports. -/
theorem lower_events (f : Function) (tree : ScopeTree) (registry : Registry) (options : Options) :
    match (f.lower tree registry options).result with
    | .error .dangling => True
    | .error (.declined reason) => ∃ n ≤ f.routes,
        (f.lower tree registry options).events = f.opening n ++ [.declined reason]
    | .ok body => body.name = f.name ∧ (f.lower tree registry options).events =
        f.opening f.routes ++ [.lowered f.name body.code.length body.temps.size] := by
  unfold Function.lower
  cases hctx : Context.ofFunction? tree registry options f with
  | none => trivial
  | some ctx =>
    obtain rfl : ctx.function = f := by
      simp only [Context.ofFunction?, bind, Option.bind_eq_some_iff, pure, Option.some.injEq] at hctx
      obtain ⟨_, -, _, -, _, -, rfl⟩ := hctx
      rfl
    let started : Session := { events := #[.started ctx.function.name ctx.function.isResumable] }
    have hends := Lower.functionCode_reports ctx started
    dsimp only
    rw [Lower.wholeFunction_run]
    cases hrun : Lower.functionCode ctx.function ctx started with
    | ok _ s =>
      rw [hrun] at hends
      rw [Lower.bind_run hrun]
      refine ⟨rfl, ?_⟩
      show (s.events.push (.lowered _ s.code.size s.temps.size)).toList = _
      rw [Array.toList_push, events_of_routes hends, length_toBody]
      simp [Session.toBody]
    | error halt s =>
      rw [hrun] at hends
      rw [Simulation.bind_halt hrun]
      cases hends with
      | declined hn hroutes =>
        refine ⟨_, hn, Array.toList_push.trans ?_⟩
        rw [events_of_routes hroutes]
      | dangling => trivial

/-- A body that is lowered goes through the passes. -/
theorem compile_of_ok {lowered : Body} (h : (f.lower tree registry options).result = .ok lowered) :
    f.compile tree registry options = ⟨.ok (lowered.optimize registry options).1,
      (f.lower tree registry options).events ++
        [(lowered.optimize registry options).2.event lowered.name]⟩ := by
  unfold Function.compile
  dsimp only
  rw [h, ← Body.name_optimize lowered registry options]

theorem compile_of_error {halt : Halt} (h : (f.lower tree registry options).result = .error halt) :
    f.compile tree registry options = ⟨.error halt, (f.lower tree registry options).events⟩ := by
  unfold Function.compile
  dsimp only
  rw [h]
  exact congrArg (Outcome.mk · _) h

/-- The events of a compilation have one shape. The start is reported first, then the routed `try`
statements one after the other. A decline is reported with its reason and ends the log. Otherwise
all of the routed statements have been reported, and the log ends with the size of the lowered body
and with the number of changes that each enabled pass has made. -/
theorem compile_reports (f : Function) (tree : ScopeTree) (registry : Registry) (options : Options) :
    match f.compile tree registry options with
    | ⟨.error .dangling, _⟩ => True
    | ⟨.error (.declined reason), events⟩ => ∃ n ≤ f.routes,
        events = f.opening n ++ [.declined reason] ∧
        events.map Event.line = (.debug, "lowering function body") ::
          List.replicate n (.trace, "routing try region through state fields") ++
            [(.debug, "lowering declined")]
    | ⟨.ok body, events⟩ => ∃ lowered reused normalized bound,
        (f.lower tree registry options).result = .ok lowered ∧
        reused = (if options.reuseCoercions then lowered.reuseCoercions else (lowered, 0)) ∧
        normalized = (if options.normalizeTypes then reused.1.normalizeTypes else (reused.1, 0)) ∧
        bound = (if options.bindMemberCalls then normalized.1.bindMemberCalls registry
          else (normalized.1, 0)) ∧
        body = bound.1 ∧
        events = f.opening f.routes ++ [.lowered f.name lowered.code.length lowered.temps.size,
            .optimized f.name reused.2 normalized.2 bound.2] ∧
        events.map Event.line = (.debug, "lowering function body") ::
          List.replicate f.routes (.trace, "routing try region through state fields") ++
            [(.trace, "lowered function body"), (.trace, "optimization passes finished")] := by
  have hevents := f.lower_events tree registry options
  cases hresult : (f.lower tree registry options).result with
  | error halt =>
    rw [hresult] at hevents
    rw [compile_of_error hresult]
    cases halt with
    | dangling => trivial
    | declined reason =>
      obtain ⟨n, hn, hevents⟩ := hevents
      refine ⟨n, hn, hevents, ?_⟩
      rw [hevents, List.map_append, map_line_opening]
      rfl
  | ok lowered =>
    rw [hresult] at hevents
    obtain ⟨hname, hevents⟩ := hevents
    rw [compile_of_ok hresult, hevents, hname]
    refine ⟨lowered, _, _, _, rfl, rfl, rfl, rfl, rfl, List.append_assoc _ _ _, ?_⟩
    rw [List.map_append, List.map_append, map_line_opening, List.append_assoc]
    rfl

end Function

end ScriptLowering
