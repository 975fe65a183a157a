import ScriptLowering.Proofs.Simulation.Statement
import ScriptLowering.Proofs.StateName

/-!
# Lowerings with different bounds for the fixed arity

Two runs of the lowering whose contexts differ in the bound for calls of fixed arity, the first one
having the smaller bound. Where the first run packs the arguments of a call and the second one does
not, the first run builds an array that has no counterpart: its temp is read by the call and nowhere
else. Apart from these arrays the temps of the two runs correspond one to one, with equal storages,
and the code of the runs is made of *segments*: an instruction on each side, or such a call.

No step of the lowering can tell the two runs apart, so they stay aligned: both go on or both halt,
for the same reason and with the same events.
-/

namespace ScriptLowering

variable {form form' : CallForm} {i i' : Instr} {op : Operation} {D : Pairing}

/-! ### Instructions and segments on both sides -/

/-- The two instructions are the same but for temps that `D` pairs. -/
inductive Instr.Linked (D : Pairing) : Instr → Instr → Prop
  | define {t t' : Temp} {op op' : Operation} (hresult : (t, t') ∈ D) (hop : op.Linked D op') :
      Instr.Linked D (.define t op) (.define t' op')
  | perform {effect effect' : Effect} (heffect : effect.Linked D effect') :
      Instr.Linked D (.perform effect) (.perform effect')
  | bare {i : Instr} (hi : i.isBare = true) : Instr.Linked D i i
  | branchIf {expected : Bool} {t t' : Temp} {l : Label} (ht : (t, t') ∈ D) :
      Instr.Linked D (.branchIf expected t l) (.branchIf expected t' l)
  | ret {t t' : Temp} (ht : (t, t') ∈ D) : Instr.Linked D (.ret t) (.ret t')
  | raise {t t' : Temp} (ht : (t, t') ∈ D) : Instr.Linked D (.raise t) (.raise t')
  | asyncReject {t t' : Temp} (ht : (t, t') ∈ D) : Instr.Linked D (.asyncReject t) (.asyncReject t')
  | suspend {kind : SuspendKind} {t t' u u' : Temp} {state : Nat} {l : Label}
      {reject : Option RejectRoute} (ht : (t, t') ∈ D) (hu : (u, u') ∈ D) :
      Instr.Linked D (.suspend kind t state l u reject) (.suspend kind t' state l u' reject)

/-- The two resume points are the same but for temps that `D` pairs. -/
structure ResumePoint.Linked (D : Pairing) (q q' : ResumePoint) : Prop where
  state : q'.state = q.state
  label : q'.label = q.label
  kind : q'.kind = q.kind
  result : Linkable.Linked D q.result q'.result

section Mono

variable {E : Pairing} (hD : D ⊆ E)

include hD

theorem Operation.Linked.mono {op op' : Operation} (h : op.Linked D op') : op.Linked E op' :=
  ⟨Linkable.mono h.uses hD, h.same⟩

theorem Effect.Linked.mono {effect effect' : Effect} (h : effect.Linked D effect') :
    effect.Linked E effect' :=
  ⟨Linkable.mono h.uses hD, h.same⟩

theorem CallForm.Linked.mono (h : form.Linked D form') :
    form.Linked E form' := by
  cases form <;> cases form'
  case value.value => exact ⟨hD h.1, hD h.2⟩
  case member.member => exact ⟨hD h.1, h.2⟩
  all_goals exact h.elim

theorem Instr.Linked.mono (h : i.Linked D i') : i.Linked E i' := by
  cases h with
  | define hresult hop => exact .define (hD hresult) (hop.mono hD)
  | perform heffect => exact .perform (heffect.mono hD)
  | bare hi => exact .bare hi
  | branchIf ht => exact .branchIf (hD ht)
  | ret ht => exact .ret (hD ht)
  | raise ht => exact .raise (hD ht)
  | asyncReject ht => exact .asyncReject (hD ht)
  | suspend ht hu => exact .suspend (hD ht) (hD hu)

theorem ResumePoint.Linked.mono {q q' : ResumePoint} (h : q.Linked D q') : q.Linked E q' :=
  ⟨h.state, h.label, h.kind, Linkable.mono h.result hD⟩

end Mono

theorem CallForm.Linked.fixed {args args' : List Temp}
    (h : form.Linked D form') (hargs : Linkable.Linked D args args') :
    (form.fixed args).Linked D (form'.fixed args') := by
  cases form <;> cases form'
  case value.value => exact ⟨.cons h.1 (.cons h.2 hargs), rfl⟩
  case member.member =>
    obtain ⟨hreceiver, rfl⟩ := h
    exact ⟨.cons hreceiver hargs, rfl⟩
  all_goals exact h.elim

theorem CallForm.Linked.packed {array array' : Temp}
    (h : form.Linked D form') (harray : (array, array') ∈ D) :
    (form.packed array).Linked D (form'.packed array') := by
  cases form <;> cases form'
  case value.value => exact ⟨.cons h.1 (.cons h.2 (.cons harray .nil)), rfl⟩
  case member.member =>
    obtain ⟨hreceiver, rfl⟩ := h
    exact ⟨.cons hreceiver (.cons harray .nil), rfl⟩
  all_goals exact h.elim

theorem Operation.Linked.add {l r : Temp} (h : (Operation.add l r).Linked D op) :
    ∃ l' r', op = .add l' r' ∧ (l, l') ∈ D ∧ (r, r') ∈ D := by
  obtain ⟨huses, hsame⟩ := h
  generalize op.uses = operands at huses hsame
  subst hsame
  obtain _ | ⟨hl, _ | ⟨hr, -⟩⟩ := huses
  exact ⟨_, _, rfl, hl, hr⟩

theorem Operation.Linked.of_add {l' r' : Temp}
    (h : op.Linked D (.add l' r')) : ∃ l r, op = .add l r := by
  cases op <;> first | exact ⟨_, _, rfl⟩ | cases h.same

/-- Corresponding pieces of code: an instruction on each side, or a call whose arguments only the
first side packs. -/
inductive Segment where
  | single (i i' : Instr)
  | packed (form form' : CallForm) (result result' array : Temp) (args args' : List Temp)

namespace Segment

/-- The code of the first side. -/
def first : Segment → List Instr
  | .single i _ => [i]
  | .packed form _ result _ array args _ =>
    [.define array (.packArguments args), .define result (form.packed array)]

/-- The code of the second side. -/
def second : Segment → Instr
  | .single _ i' => i'
  | .packed _ form' _ result' _ _ args' => .define result' (form'.fixed args')

/-- The array that only the first side builds. -/
def array? : Segment → Option Temp
  | .single _ _ => none
  | .packed _ _ _ _ array _ _ => some array

/-- The two sides are the same but for temps that `D` pairs. -/
def Linked (D : Pairing) : Segment → Prop
  | .single i i' => i.Linked D i'
  | .packed form form' result result' _ args args' =>
    form.Linked D form' ∧ Linkable.Linked D args args' ∧ (result, result') ∈ D

theorem Linked.mono {D E : Pairing} {g : Segment} (h : g.Linked D) (hD : D ⊆ E) : g.Linked E := by
  cases g with
  | single i i' => exact Instr.Linked.mono hD h
  | packed => exact ⟨h.1.mono hD, Linkable.mono h.2.1 hD, hD h.2.2⟩

end Segment

/-! ### Sessions on both sides -/

/-- Which temps and which pieces of code correspond. -/
structure Alignment where
  pairs : Pairing
  segments : List Segment

/-- The arrays that only the first run builds. -/
def Alignment.arrays (w : Alignment) : List Temp :=
  w.segments.filterMap Segment.array?

theorem Alignment.arrays_single (w : Alignment) (i i' : Instr) :
    Alignment.arrays { w with segments := w.segments ++ [.single i i'] } = w.arrays :=
  List.filterMap_append.trans (List.append_nil _)

theorem Alignment.arrays_packed (w : Alignment) (form form' : CallForm)
    (result result' array : Temp) (args args' : List Temp) :
    Alignment.arrays { w with
      segments := w.segments ++ [.packed form form' result result' array args args'] }
      = w.arrays ++ [array] :=
  List.filterMap_append

namespace Session

/-- The sessions of the two runs correspond. -/
structure Aligned (w : Alignment) (s s' : Session) : Prop where
  linked : ∀ g ∈ w.segments, g.Linked w.pairs
  first : s.code.toList = w.segments.flatMap Segment.first
  second : s'.code.toList = w.segments.map Segment.second
  /-- The temps of the first run that are paired, and the arrays that are not. -/
  nodup : (w.pairs.map Prod.fst ++ w.arrays).Nodup
  nodup' : (w.pairs.map Prod.snd).Nodup
  arrays : ∀ a ∈ w.arrays, a.index < s.temps.size
  storages : ∀ p ∈ w.pairs, ∃ storage, s.temps[p.1.index]? = some storage ∧
    s'.temps[p.2.index]? = some storage
  points : List.Forall₂ (ResumePoint.Linked w.pairs) s.resumePoints.toList s'.resumePoints.toList
  /-- Everything else is the same. -/
  rest : s' = { s with code := s'.code, temps := s'.temps, resumePoints := s'.resumePoints }

namespace Aligned

variable {w : Alignment} {s s' t t' : Session}
variable {G : List Segment} {v v' : Temp} {p : Temp × Temp}

section

variable (h : Aligned w s s')

include h

/-- A paired temp has one partner. -/
theorem eq_iff {q : Temp × Temp} (hp : p ∈ w.pairs) (hq : q ∈ w.pairs) :
    p.1 = q.1 ↔ p.2 = q.2 := by
  have hfirst := List.inj_on_of_nodup_map (List.nodup_append.1 h.nodup).1
  have hsecond := List.inj_on_of_nodup_map h.nodup'
  exact ⟨fun heq => by rw [hfirst hp hq heq], fun heq => by rw [hsecond hp hq heq]⟩

theorem tables : s.SameTables s' := by
  constructor <;> rw [h.rest]

theorem events : s'.events = s.events := by
  rw [h.rest]

/-- Changes of the other tables. -/
theorem aside (ht : s.KeepsCode t) (ht' : s'.KeepsCode t')
    (htables : t.SameTables t') : Aligned w t t' where
  linked := h.linked
  first := by rw [ht.code, h.first]
  second := by rw [ht'.code, h.second]
  nodup := h.nodup
  nodup' := h.nodup'
  arrays := by simpa only [ht.temps] using h.arrays
  storages := by simpa only [ht.temps, ht'.temps] using h.storages
  points := by simpa only [ht.resumePoints, ht'.resumePoints] using h.points
  rest := by
    have hregions : t'.regions = t.regions := by rw [ht.regions, ht'.regions, h.rest]
    have hrouted : t'.routedCount = t.routedCount := by rw [ht.routedCount, ht'.routedCount, h.rest]
    have hevents : t'.events = t.events := by rw [ht.events, ht'.events, h.rest]
    obtain ⟨⟩ := t
    obtain ⟨⟩ := t'
    obtain ⟨rfl, rfl, rfl, rfl, rfl, rfl, rfl, rfl⟩ := htables
    cases hregions
    cases hrouted
    cases hevents
    rfl

/-- The same change to both sessions, of tables that have nothing to do with temps. -/
theorem map (f : Session → Session)
    (hcode : ∀ u, (f u).code = u.code) (htemps : ∀ u, (f u).temps = u.temps)
    (hpoints : ∀ u, (f u).resumePoints = u.resumePoints)
    (hf : ∀ u code temps resumePoints, f { u with code, temps, resumePoints } =
      { f u with code, temps, resumePoints }) : Aligned w (f s) (f s') where
  linked := h.linked
  first := by rw [hcode, h.first]
  second := by rw [hcode, h.second]
  nodup := h.nodup
  nodup' := h.nodup'
  arrays := by simpa only [htemps] using h.arrays
  storages := by simpa only [htemps] using h.storages
  points := by simpa only [hpoints] using h.points
  rest := by
    rw [hcode, htemps, hpoints, ← hf]
    exact congrArg f h.rest

theorem paired_lt (hp : p ∈ w.pairs) :
    p.1.index < s.temps.size ∧ p.2.index < s'.temps.size := by
  obtain ⟨storage, hfirst, hsecond⟩ := h.storages p hp
  exact ⟨(Array.getElem?_eq_some_iff.1 hfirst).1, (Array.getElem?_eq_some_iff.1 hsecond).1⟩

theorem lt_of_mem {t : Temp} (ht : t ∈ w.pairs.map Prod.fst ++ w.arrays) :
    t.index < s.temps.size := by
  rcases List.mem_append.1 ht with hmem | hmem
  · obtain ⟨p, hp, rfl⟩ := List.mem_map.1 hmem
    exact (h.paired_lt hp).1
  · exact h.arrays t hmem

/-- A new temp on each side. -/
theorem alloc (storage : Storage) :
    Aligned { w with pairs := (⟨s.temps.size⟩, ⟨s'.temps.size⟩) :: w.pairs }
      { s with temps := s.temps.push storage } { s' with temps := s'.temps.push storage } where
  linked g hg := (h.linked g hg).mono (List.subset_cons_self _ _)
  first := h.first
  second := h.second
  nodup := List.nodup_cons.2 ⟨fun hmem => Nat.lt_irrefl _ (h.lt_of_mem hmem), h.nodup⟩
  nodup' := by
    refine List.nodup_cons.2 ⟨fun hmem => ?_, h.nodup'⟩
    obtain ⟨p, hp, heq⟩ := List.mem_map.1 hmem
    have hlt := (h.paired_lt hp).2
    rw [heq] at hlt
    exact Nat.lt_irrefl _ hlt
  arrays a ha := by
    have hlt := h.arrays a ha
    simp only [Array.size_push]
    omega
  storages p hp := by
    rcases List.mem_cons.1 hp with rfl | hp
    · exact ⟨storage, by simp, by simp⟩
    · obtain ⟨hlt, hlt'⟩ := h.paired_lt hp
      obtain ⟨storage', hfirst, hsecond⟩ := h.storages p hp
      refine ⟨storage', ?_, ?_⟩
      · rw [Array.getElem?_push, if_neg (by omega), hfirst]
      · rw [Array.getElem?_push, if_neg (by omega), hsecond]
  points := h.points.imp fun _ _ hq => hq.mono (List.subset_cons_self _ _)
  rest := congrArg (fun u => { u with temps := s'.temps.push storage }) h.rest

/-- An instruction on each side. -/
theorem push (hi : i.Linked w.pairs i') :
    Aligned { w with segments := w.segments ++ [.single i i'] }
      { s with code := s.code.push i } { s' with code := s'.code.push i' } where
  linked g hg := by
    rcases List.mem_append.1 hg with hg | hg
    · exact h.linked g hg
    · obtain rfl := List.mem_singleton.1 hg
      exact hi
  first := by simp [h.first, Segment.first]
  second := by simp [h.second, Segment.second]
  nodup := by
    rw [w.arrays_single]
    exact h.nodup
  nodup' := h.nodup'
  arrays := by
    rw [w.arrays_single]
    exact h.arrays
  storages := h.storages
  points := h.points
  rest := congrArg (fun u => { u with code := s'.code.push i' }) h.rest

/-- A call whose arguments the first side packs. -/
theorem pack {result result' : Temp}
    {args args' : List Temp} (hform : form.Linked w.pairs form') (hargs : Linked w.pairs args args')
    (hresult : (result, result') ∈ w.pairs) (storage : Storage) :
    Aligned { w with
        segments := w.segments ++ [.packed form form' result result' ⟨s.temps.size⟩ args args'] }
      { s with
        temps := s.temps.push storage
        code := (s.code.push (.define ⟨s.temps.size⟩ (.packArguments args))).push
          (.define result (form.packed ⟨s.temps.size⟩)) }
      { s' with code := s'.code.push (.define result' (form'.fixed args')) } where
  linked g hg := by
    rcases List.mem_append.1 hg with hg | hg
    · exact h.linked g hg
    · obtain rfl := List.mem_singleton.1 hg
      exact ⟨hform, hargs, hresult⟩
  first := by simp [h.first, Segment.first]
  second := by simp [h.second, Segment.second]
  nodup := by
    rw [w.arrays_packed, ← List.append_assoc]
    refine List.Nodup.append h.nodup (List.nodup_singleton _) fun t ht ht' => ?_
    obtain rfl := List.mem_singleton.1 ht'
    exact Nat.lt_irrefl _ (h.lt_of_mem ht)
  nodup' := h.nodup'
  arrays a ha := by
    rw [w.arrays_packed] at ha
    rw [Array.size_push]
    rcases List.mem_append.1 ha with ha | ha
    · exact (h.arrays a ha).trans (Nat.lt_succ_self _)
    · obtain rfl := List.mem_singleton.1 ha
      exact Nat.lt_succ_self _
  storages p hp := by
    obtain ⟨storage', hfirst, hsecond⟩ := h.storages p hp
    refine ⟨storage', ?_, hsecond⟩
    rw [Array.getElem?_push, if_neg (by have := (h.paired_lt hp).1; omega), hfirst]
  points := h.points
  rest := congrArg (fun u => { u with code := s'.code.push (.define result' (form'.fixed args')) }) h.rest

/-- A resume point on each side. -/
theorem addPoint {q q' : ResumePoint} (hq : q.Linked w.pairs q') :
    Aligned w { s with resumePoints := s.resumePoints.push q }
      { s' with resumePoints := s'.resumePoints.push q' } where
  linked := h.linked
  first := h.first
  second := h.second
  nodup := h.nodup
  nodup' := h.nodup'
  arrays := h.arrays
  storages := h.storages
  points := by
    rw [Array.toList_push, Array.toList_push]
    exact List.rel_append h.points (.cons hq .nil)
  rest := congrArg (fun u => { u with resumePoints := s'.resumePoints.push q' }) h.rest

theorem size_points : s'.resumePoints.size = s.resumePoints.size := by
  simpa using h.points.length_eq.symm

end

/-! ### Fused additions -/

open Lower

theorem back?_eq (h : Aligned w s s') {g : Segment} (hsegments : w.segments = G ++ [g]) :
    s.code.back? = g.first.getLast? ∧ s'.code.back? = some g.second := by
  constructor
  · rw [← Array.getLast?_toList, h.first, hsegments]
    cases g <;> simp [Segment.first]
  · rw [← Array.getLast?_toList, h.second, hsegments]
    simp

theorem justAdded?_eq_none {t : Temp} {op : Operation} (hback : s.code.back? = some (.define t op))
    (hop : ∀ l r, op ≠ .add l r) : Lower.justAdded? s v = none := by
  unfold Lower.justAdded?
  rw [hback]
  cases op <;> first | rfl | exact absurd rfl (hop _ _)

/-- Both runs end with an addition of the value, or neither does. -/
theorem justAdded? (h : Aligned w s s') (hv : (v, v') ∈ w.pairs) :
    (Lower.justAdded? s v = none ∧ Lower.justAdded? s' v' = none) ∨
      ∃ G l r l' r', Lower.justAdded? s v = some (l, r) ∧ Lower.justAdded? s' v' = some (l', r') ∧
        w.segments = G ++ [.single (.define v (.add l r)) (.define v' (.add l' r'))] ∧
        (l, l') ∈ w.pairs ∧ (r, r') ∈ w.pairs := by
  obtain hnil | ⟨G, g, hsegments⟩ := List.eq_nil_or_concat' w.segments
  · have hfirst : s.code = #[] := by simpa [hnil] using h.first
    have hsecond : s'.code = #[] := by simpa [hnil] using h.second
    exact .inl ⟨by rw [Lower.justAdded?, hfirst]; rfl, by rw [Lower.justAdded?, hsecond]; rfl⟩
  obtain ⟨hfirst, hsecond⟩ := h.back?_eq hsegments
  have hlinked := h.linked g (hsegments ▸ List.mem_append_right G (List.mem_singleton_self g))
  cases g with
  | packed form form' =>
    exact .inl ⟨justAdded?_eq_none hfirst (by cases form <;> exact fun _ _ h => by cases h),
      justAdded?_eq_none hsecond (by cases form' <;> exact fun _ _ h => by cases h)⟩
  | single i i' =>
    cases hlinked with
    | @define t t' op op' hresult hop =>
      by_cases hadd : ∃ l r, op = .add l r
      · obtain ⟨l, r, rfl⟩ := hadd
        obtain ⟨l', r', rfl, hl, hr⟩ := hop.add
        unfold Lower.justAdded?
        rw [hfirst, hsecond]
        by_cases ht : t = v
        · obtain rfl := ht
          obtain rfl := (h.eq_iff hresult hv).1 rfl
          exact .inr ⟨G, l, r, l', r', if_pos rfl, if_pos rfl, hsegments, hl, hr⟩
        · exact .inl ⟨if_neg ht, if_neg fun ht' => ht ((h.eq_iff hresult hv).2 ht')⟩
      · refine .inl ⟨justAdded?_eq_none hfirst fun l r heq => hadd ⟨l, r, heq⟩,
          justAdded?_eq_none hsecond fun l r heq => hadd ?_⟩
        subst heq
        exact hop.of_add
    | bare hi =>
      unfold Lower.justAdded?
      rw [hfirst, hsecond]
      cases i <;> first | exact .inl ⟨rfl, rfl⟩ | cases hi
    | _ =>
      unfold Lower.justAdded?
      rw [hfirst, hsecond]
      exact .inl ⟨rfl, rfl⟩

/-- The addition at the end of both runs yields a number. -/
theorem fuse (h : Aligned w s s') {l r l' r' : Temp}
    (hsegments : w.segments = G ++ [.single (.define v (.add l r)) (.define v' (.add l' r'))])
    (hv : (v, v') ∈ w.pairs) (hl : (l, l') ∈ w.pairs) (hr : (r, r') ∈ w.pairs) :
    Aligned { w with segments :=
        G ++ [.single (.define v (.addToNumber l r)) (.define v' (.addToNumber l' r'))] }
      (fuseAddition v l r s) (fuseAddition v' l' r' s') where
  linked g hg := by
    rcases List.mem_append.1 hg with hg | hg
    · exact h.linked g (hsegments ▸ List.mem_append_left _ hg)
    · obtain rfl := List.mem_singleton.1 hg
      exact .define hv ⟨.cons hl (.cons hr .nil), rfl⟩
  first := by simp [fuseAddition, h.first, hsegments, Segment.first]
  second := by simp [fuseAddition, h.second, hsegments, Segment.second]
  nodup := by
    have hnodup := h.nodup
    rw [Alignment.arrays, hsegments, List.filterMap_append] at hnodup
    rw [Alignment.arrays, List.filterMap_append]
    exact hnodup
  nodup' := h.nodup'
  arrays a ha := by
    have hlt := h.arrays a
    rw [Alignment.arrays, hsegments, List.filterMap_append] at hlt
    rw [Alignment.arrays, List.filterMap_append] at ha
    simpa [fuseAddition] using hlt ha
  storages p hp := by
    obtain ⟨storage, hfirst, hsecond⟩ := h.storages p hp
    have hiff := h.eq_iff hv hp
    obtain ⟨hlt, hlt'⟩ := h.paired_lt hv
    by_cases heq : v = p.1
    · refine ⟨.double, ?_, ?_⟩
      · rw [← heq]
        exact Array.getElem?_setIfInBounds_self_of_lt hlt
      · rw [← hiff.1 heq]
        exact Array.getElem?_setIfInBounds_self_of_lt hlt'
    · refine ⟨storage, ?_, ?_⟩
      · exact (Array.getElem?_setIfInBounds_ne fun hindex => heq (congrArg Temp.mk hindex)).trans hfirst
      · refine (Array.getElem?_setIfInBounds_ne fun hindex => heq (hiff.2 ?_)).trans hsecond
        exact congrArg Temp.mk hindex
  points := h.points
  rest := congrArg (fuseAddition v' l' r') h.rest

end Aligned

end Session

/-! ### The simulation -/

namespace Lower

open Simulation

/-- A run is simulated by one with a larger bound for the fixed arity. -/
def arity : Simulation where
  World := Alignment
  contexts ctx ctx' := ∃ n, ctx.fixedArity ≤ n ∧ ctx' = ctx.withArity n
  sessions w s s' := Session.Aligned w s s'
  temps w t t' := (t, t') ∈ w.pairs
  leads _ w w' := w.pairs ⊆ w'.pairs
  halts _ _ s s' := s'.events = s.events
  refl _ _ := List.Subset.refl _
  trans := List.Subset.trans
  temps_mono hleads h := hleads h
  halts_mono _ h := h
  arity := by
    rintro ctx _ ⟨n, -, rfl⟩
    exact ⟨n, rfl⟩
  inside := by
    rintro ctx _ frames ⟨n, hn, rfl⟩
    exact ⟨n, hn, rfl⟩
  insideBlock := by
    rintro ctx _ block ⟨n, hn, rfl⟩
    exact ⟨n, hn, rfl⟩

variable {w w' : Alignment} {ctx : Context} {s s' : Session} {t t' : Temp}

theorem subset_of_holds (h : arity.Holds w D) : D ⊆ w.pairs :=
  fun p hp => h p hp

/-- Both runs succeed with results that hold no temps. -/
theorem ends_same {γ : Type} {a : γ} (hs : Session.Aligned w' s s') (hleads : w.pairs ⊆ w'.pairs) :
    @Ends γ sameLink arity ctx w (.ok a s) (.ok a s') :=
  @Ends.ok γ sameLink arity ctx w a a s s' w' [] hleads hs (holds_nil (Φ := arity) w') rfl

/-- Both runs succeed with temps that are paired. -/
theorem ends_temp
    (hs : Session.Aligned w' s s') (hleads : w.pairs ⊆ w'.pairs) (ht : (t, t') ∈ w'.pairs) :
    arity.Ends ctx w (.ok t s) (.ok t' s') :=
  Ends.ok (Φ := arity) w' [(t, t')] hleads hs (List.forall_mem_singleton.2 ht) (.head _)

/-! ### The basic steps -/

theorem emit_aligned (h : i.Linked D i') : arity.Relates D (emit i) (emit i') :=
  fun _ _ _ _ _ _ hs hD => ends_same (hs.push (h.mono (subset_of_holds hD))) (List.Subset.refl _)

theorem define_aligned {storage : Storage} {op op' : Operation} (h : op.Linked D op') :
    arity.Relates D (define storage op) (define storage op') := by
  intro ctx ctx' w s s' _ hs hD
  have hop := (h.mono (subset_of_holds hD)).mono
    (List.subset_cons_self (⟨s.temps.size⟩, ⟨s'.temps.size⟩) _)
  exact ends_temp ((hs.alloc storage).push (.define (.head _) hop))
    (List.subset_cons_self _ _) (.head _)

theorem storageOf_aligned (h : (t, t') ∈ D) :
    arity.Relates D (storageOf t) (storageOf t') := by
  intro ctx ctx' w s s' _ hs hD
  obtain ⟨storage, hfirst, hsecond⟩ := hs.storages _ (hD _ h)
  have heq : s.temps[t.index]?.getD .unknown = s'.temps[t'.index]?.getD .unknown := by
    rw [hfirst, hsecond]
  exact Ends.ok (Φ := arity) w [] (List.Subset.refl _) hs (holds_nil (Φ := arity) w) heq

theorem asObject_aligned (h : (t, t') ∈ D) :
    arity.Relates D (asObject t) (asObject t') := by
  refine .bind_same (storageOf_aligned h) fun storage => ?_
  split
  · exact pure_relates h
  · exact define_aligned ⟨.cons h .nil, rfl⟩

theorem asNumber_aligned (h : (t, t') ∈ D) :
    arity.Relates D (asNumber t) (asNumber t') := by
  refine .bind_same (storageOf_aligned h) fun storage => ?_
  split
  · exact pure_relates h
  · intro ctx ctx' w s s' hctx hs hD
    rw [get_run, get_run]
    obtain ⟨hfirst, hsecond⟩ | ⟨G, l, r, l', r', hfirst, hsecond, hsegments, hl, hr⟩ :=
      hs.justAdded? (hD _ h)
    · have hconvert : arity.Relates D (define .double (.coerce .toNumber t))
          (define .double (.coerce .toNumber t')) := define_aligned ⟨.cons h .nil, rfl⟩
      rw [hfirst, hsecond]
      exact hconvert hctx hs hD
    · obtain ⟨storage, hentry, hentry'⟩ := hs.storages _ (hD _ h)
      rw [hfirst, hsecond]
      dsimp only
      rw [get_run, get_run, hentry, hentry']
      exact ends_temp (hs.fuse hsegments (hD _ h) hl hr) (List.Subset.refl _) (hD _ h)

theorem stateField_aligned (name : String) :
    arity.Relates D (stateField name) (stateField name) := by
  intro ctx ctx' w s s' hctx hs _
  obtain ⟨n, -, rfl⟩ := hctx
  have hkeeps : ∀ u : Session, u.KeepsCode (if u.stateFields.contains name then u
      else { u with stateFields := u.stateFields.push name }) := by
    intro u
    split <;> exact ⟨rfl, rfl, rfl, rfl, rfl, rfl⟩
  exact ends_same (hs.aside (hkeeps s) (hkeeps s') (sameTables_stateField hs.tables name))
    (List.Subset.refl _)

section Call

variable {values : List Temp} {fixed : List Temp → Operation} {withArray : Temp → Operation}
  {ctx : Context} {s : Session}

theorem emitCall_few (h : values.length ≤ ctx.fixedArity) :
    emitCall (.fixed values) fixed withArray ctx s = .ok ⟨s.temps.size⟩ { s with
        temps := s.temps.push .object
        code := s.code.push (.define ⟨s.temps.size⟩ (fixed values)) } := by
  unfold emitCall
  rw [bind_run (m := freshTemp .object) rfl, bind_run (m := read) rfl]
  dsimp only
  rw [if_pos h]
  rfl

theorem emitCall_many (h : ¬ values.length ≤ ctx.fixedArity) :
    emitCall (.fixed values) fixed withArray ctx s = .ok ⟨s.temps.size⟩ { s with
        temps := (s.temps.push .object).push .array
        code := (s.code.push (.define ⟨(s.temps.push .object).size⟩ (.packArguments values))).push
          (.define ⟨s.temps.size⟩ (withArray ⟨(s.temps.push .object).size⟩)) } := by
  unfold emitCall
  rw [bind_run (m := freshTemp .object) rfl, bind_run (m := read) rfl]
  dsimp only
  rw [if_neg h]
  rfl

end Call

/-- A call: where the first run packs the arguments, the second one may do without. -/
theorem emitCall_aligned {args args' : Arguments} (hargs : Linked D args args')
    (hform : form.Linked D form') :
    arity.Relates D (emitCall args form.fixed form.packed)
      (emitCall args' form'.fixed form'.packed) := by
  intro ctx ctx' w s s' hctx hs hD
  obtain ⟨n, hn, rfl⟩ := hctx
  have hresult := hs.alloc .object
  have hsub := List.subset_cons_self (⟨s.temps.size⟩, ⟨s'.temps.size⟩) w.pairs
  have hD' := subset_of_holds hD
  replace hform := (hform.mono hD').mono hsub
  cases args with
  | collected array =>
    cases args' with
    | fixed values' => exact hargs.elim
    | collected array' =>
      have hcall := hform.packed (hsub (hD' hargs))
      exact ends_temp (hresult.push (.define (.head _) hcall)) hsub (.head _)
  | fixed values =>
    cases args' with
    | collected array' => exact hargs.elim
    | fixed values' =>
      have hvalues : Linked _ values values' := Linkable.mono (Linkable.mono hargs hD') hsub
      have hlength : values.length = values'.length := List.Forall₂.length_eq hvalues
      by_cases hfew : values.length ≤ ctx.fixedArity
      · have hfew' : values'.length ≤ (ctx.withArity n).fixedArity := hlength ▸ hfew.trans hn
        rw [emitCall_few hfew, emitCall_few hfew']
        exact ends_temp (hresult.push (.define (.head _) (hform.fixed hvalues))) hsub (.head _)
      rw [emitCall_many hfew]
      by_cases hfew' : values'.length ≤ (ctx.withArity n).fixedArity
      · rw [emitCall_few hfew']
        exact ends_temp (hresult.pack hform hvalues (.head _) .array) hsub (.head _)
      · rw [emitCall_many hfew']
        have hsub' := List.subset_cons_self
          (⟨(s.temps.push .object).size⟩, ⟨(s'.temps.push .object).size⟩)
          ((⟨s.temps.size⟩, ⟨s'.temps.size⟩) :: w.pairs)
        have hcall := (hform.mono hsub').packed (.head _)
        have hpack : (Operation.packArguments values).Linked _ (.packArguments values') :=
          ⟨Linkable.mono hvalues hsub', rfl⟩
        have hpacked := (hresult.alloc .array).push (.define (.head _) hpack)
        exact ends_temp (hpacked.push (.define (hsub' (.head _)) hcall))
          (List.Subset.trans hsub hsub') (hsub' (.head _))

theorem throwValue_aligned (h : (t, t') ∈ D) :
    arity.Relates D (throwValue t) (throwValue t') := by
  refine .bind_temp (asObject_aligned h) fun u u' => read_bind (fun _ _ => rfl) fun ctx => ?_
  have hu : (u, u') ∈ (u, u') :: D := (.head _)
  split
  · refine .bind_same (.bind_same (stateField_aligned _) fun _ => ?_) fun _ => emit_aligned (.bare rfl)
    exact emit_aligned (.perform ⟨.cons hu .nil, rfl⟩)
  · exact emit_aligned (.raise hu)
  · split
    · exact emit_aligned (.asyncReject hu)
    · exact emit_aligned (.raise hu)

theorem pause_aligned {kind : SuspendKind} {label : Label} {reject : Option RejectRoute}
    (h : (t, t') ∈ D) :
    arity.Relates D (pause kind t label reject) (pause kind t' label reject) := by
  intro ctx ctx' w s s' _ hs hD
  have hsub := List.subset_cons_self (⟨s.temps.size⟩, ⟨s'.temps.size⟩) w.pairs
  have hpoint : ∀ kind, ResumePoint.Linked ((⟨s.temps.size⟩, ⟨s'.temps.size⟩) :: w.pairs)
      ⟨s.resumePoints.size + 1, label, some ⟨s.temps.size⟩, kind⟩
      ⟨s'.resumePoints.size + 1, label, some ⟨s'.temps.size⟩, kind⟩ := fun kind =>
    ⟨congrArg (· + 1) hs.size_points, rfl, rfl, (.head _)⟩
  have hsuspend : Instr.Linked ((⟨s.temps.size⟩, ⟨s'.temps.size⟩) :: w.pairs)
      (.suspend kind t (s.resumePoints.size + 1) label ⟨s.temps.size⟩ reject)
      (.suspend kind t' (s'.resumePoints.size + 1) label ⟨s'.temps.size⟩ reject) := by
    rw [hs.size_points]
    exact .suspend (hsub (hD _ h)) (.head _)
  exact ends_temp ((((hs.alloc .object).addPoint (hpoint _)).push hsuspend).push (.bare rfl)) hsub
    (.head _)

theorem addRegion_aligned (r : ExceptionRegion) : arity.Relates D (addRegion r) (addRegion r) := by
  intro ctx ctx' w s s' _ hs _
  exact ends_same (hs.map (fun u => { u with regions := u.regions.push r }) (fun _ => rfl)
    (fun _ => rfl) (fun _ => rfl) fun _ _ _ _ => rfl) (List.Subset.refl _)

instance arity_lawful : arity.Lawful where
  within _ h := h
  withinBlock h := h
  tables h := h.tables
  aside ctx hs ht ht' htables := ⟨_, List.Subset.refl _, hs.aside ht ht' htables⟩
  storage := by
    intro w s s' t t' hs ht
    obtain ⟨storage, hfirst, hsecond⟩ := hs.storages _ ht
    rw [hfirst, hsecond]
  define h := define_aligned h
  perform h := emit_aligned (.perform h)
  bare h := emit_aligned (.bare h)
  branchIf h := emit_aligned (.branchIf h)
  ret h := emit_aligned (.ret h)
  asNumber h := asNumber_aligned h
  call _ _ hargs hform := emitCall_aligned hargs hform
  pause _ h := pause_aligned h
  resumePoint := by
    intro D label ctx ctx' w s s' _ hs _
    have hpoint : ResumePoint.Linked w.pairs ⟨s.resumePoints.size + 1, label, none, .reject⟩
        ⟨s'.resumePoints.size + 1, label, none, .reject⟩ :=
      ⟨congrArg (· + 1) hs.size_points, rfl, rfl, trivial⟩
    exact Ends.ok (Φ := arity) w [] (List.Subset.refl _) (hs.addPoint hpoint)
      (holds_nil (Φ := arity) w) (congrArg (· + 1) hs.size_points).symm
  throwValue h := throwValue_aligned h
  openRoute := by
    intro D ctx ctx' w s s' _ hs _
    have hcount : s'.routedCount = s.routedCount := by rw [hs.rest]
    have hopened := hs.map (fun u => { u with
      routedCount := u.routedCount + 1
      events := u.events.push (.routed (PendingFields.numbered u.routedCount).exception) })
      (fun _ => rfl) (fun _ => rfl) (fun _ => rfl) fun _ _ _ _ => rfl
    exact Ends.ok (Φ := arity) w [] (List.Subset.refl _) hopened (holds_nil (Φ := arity) w)
      (congrArg PendingFields.numbered hcount).symm
  protect _ hrange hhandler := (Tally.protect_costs (Ψ := arity.free) id
    (fun _ => emit_aligned (.bare rfl)) (addRegion_aligned _) (fun D => (hrange D).costs (c := fun _ => 0))
    fun D => (hhandler D).costs (c := fun _ => 0)).relates
  declined := by
    intro w s s' reason hs
    exact congrArg (·.push (.declined reason)) hs.events
  tree _ := nofun
  resumable _ := nofun
  closed := nofun
  dangling _ hs := hs.events

/-! ### Whole functions -/

theorem aligned_empty : Session.Aligned ⟨[], []⟩ {} {} :=
  ⟨List.forall_mem_nil _, rfl, rfl, List.nodup_nil, List.nodup_nil, List.forall_mem_nil _,
    List.forall_mem_nil _, .nil, rfl⟩

/-- With different bounds for the fixed arity, the lowering of a function halts for the same reason
and with the same events, or it succeeds with sessions that are aligned apart from the last
event. -/
theorem wholeFunction_aligned {n : Nat} (hn : ctx.fixedArity ≤ n) :
    (∃ halt s s', wholeFunction ctx {} = .error halt s ∧
      wholeFunction (ctx.withArity n) {} = .error halt s' ∧ s'.events = s.events) ∨
    ∃ w s s' event event', Session.Aligned w s s' ∧
      wholeFunction ctx {} = .ok () { s with events := s.events.push event } ∧
      wholeFunction (ctx.withArity n) {} = .ok () { s' with events := s'.events.push event' } := by
  let started : Event := .started ctx.function.name ctx.function.isResumable
  have hstart : Session.Aligned ⟨[], []⟩ { events := #[started] } { events := #[started] } :=
    aligned_empty.map (fun u => { u with events := u.events.push started }) (fun _ => rfl)
      (fun _ => rfl) (fun _ => rfl) fun _ _ _ _ => rfl
  have hcontexts : arity.contexts ctx (ctx.withArity n) := ⟨n, hn, rfl⟩
  have hends := functionCode_relates (resolves_of_none rfl rfl ctx.function) hcontexts hstart
    (holds_nil (Φ := arity) _)
  have hrun : wholeFunction (ctx.withArity n) {} = (functionCode ctx.function >>= fun _ =>
      finish ctx.function) (ctx.withArity n) { events := #[started] } := wholeFunction_run _
  rw [wholeFunction_run, hrun]
  generalize hfirst : functionCode ctx.function ctx { events := #[started] } = r at hends
  generalize hsecond :
    functionCode ctx.function (ctx.withArity n) { events := #[started] } = r' at hends
  cases hends with
  | @ok _ _ s s' w' E hleads hs hE hlinked =>
    rw [bind_run hfirst, bind_run hsecond]
    exact .inr ⟨w', s, s', _, _, hs, rfl, rfl⟩
  | @error halt s s' hhalts =>
    rw [bind_halt hfirst, bind_halt hsecond]
    exact .inl ⟨halt, s, s', rfl, rfl, hhalts⟩

end Lower

end ScriptLowering
