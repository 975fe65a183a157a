import Mathlib.Data.List.Induction
import Mathlib.Logic.Equiv.Basic
import ScriptLowering.Proofs.Arity.Alignment

/-!
# Folded calls and renamed bodies

An argument array that is built right in front of the call that it feeds can be folded into the
call, which then takes its arguments one by one. Folding undoes the difference between the two
lowerings of a function with different bounds for the fixed arity: folded, they are the same body
but for the names of their temps.

The difference is taken apart into two steps. The first body is *unpacked*: the calls whose
arguments the other lowering does not pack are replaced by the calls of fixed arity, and nothing
else changes. The result and the second body have the same instructions but for a permutation of the
temps.
-/

namespace ScriptLowering

variable {i i' : Instr} {D : Pairing}

/-! ### Folding -/

/-- The call of fixed arity in place of an argument array and the call that it feeds. -/
def Instr.foldCall? : Instr → Instr → Option Instr
  | .define array (.packArguments args), .define result (.callMember receiver name packed) =>
    if packed = array then some (.define result (.callMemberFixed receiver name args)) else none
  | .define array (.packArguments args), .define result (.callValuePacked function scopes packed) =>
    if packed = array then some (.define result (.callValue function scopes args)) else none
  | _, _ => none

/-- The code with every argument array folded into the call right behind it. -/
def foldCalls : List Instr → List Instr
  | i :: j :: rest =>
    match i.foldCall? j with
    | some call => call :: foldCalls rest
    | none => i :: foldCalls (j :: rest)
  | code => code

/-- The body with every argument array folded into the call right behind it. -/
def Body.foldCalls (b : Body) : Body :=
  { b with code := ScriptLowering.foldCalls b.code }

section Fold

variable {j call : Instr} {rest : List Instr} {t : Temp}

theorem foldCalls_some (h : i.foldCall? j = some call) :
    foldCalls (i :: j :: rest) = call :: foldCalls rest := by
  rw [foldCalls, h]

theorem foldCalls_none (h : i.foldCall? j = none) :
    foldCalls (i :: j :: rest) = i :: foldCalls (j :: rest) := by
  rw [foldCalls, h]

/-- An instruction that builds no argument array stays. -/
theorem foldCalls_cons (h : ∀ j, i.foldCall? j = none) : foldCalls (i :: rest) = i :: foldCalls rest := by
  cases rest with
  | nil => rfl
  | cons j rest => exact foldCalls_none (h j)

theorem foldCall?_packed (form : CallForm) (array result : Temp) (args : List Temp) :
    Instr.foldCall? (.define array (.packArguments args)) (.define result (form.packed array))
      = some (.define result (form.fixed args)) := by
  cases form <;> exact if_pos rfl

theorem foldCall?_fixed (form : CallForm) (result : Temp) (args : List Temp) (j : Instr) :
    Instr.foldCall? (.define result (form.fixed args)) j = none := by
  cases form <;> rfl

/-- The second instruction is a call with an argument array, or nothing is folded. -/
theorem foldCall?_eq_some (h : i.foldCall? j = some call) :
    ∃ form array result args, i = .define array (.packArguments args) ∧
      j = .define result (CallForm.packed form array) ∧ call = .define result (form.fixed args) := by
  unfold Instr.foldCall? at h
  split at h
  · split at h
    · rename_i array args result receiver name packed hpacked
      obtain rfl := hpacked
      exact ⟨.member receiver name, packed, result, args, rfl, rfl, (Option.some.inj h).symm⟩
    · cases h
  · split at h
    · rename_i array args result function scopes packed hpacked
      obtain rfl := hpacked
      exact ⟨.value function scopes, packed, result, args, rfl, rfl, (Option.some.inj h).symm⟩
    · cases h
  · cases h

theorem foldCall?_eq_none {result : Temp} {op : Operation}
    (h : ∀ form array, op ≠ CallForm.packed form array) : i.foldCall? (.define result op) = none := by
  cases hfold : i.foldCall? (.define result op) with
  | none => rfl
  | some call =>
    obtain ⟨form, array, result', args, -, hop, -⟩ := foldCall?_eq_some hfold
    exact absurd (Instr.define.inj hop).2 (h form array)

/-- A folded call has the temps of the two instructions. -/
theorem temps_foldCall? (h : i.foldCall? j = some call) (ht : t ∈ call.temps) :
    t ∈ i.temps ∨ t ∈ j.temps := by
  obtain ⟨form, array, result, args, rfl, rfl, rfl⟩ := foldCall?_eq_some h
  have hargs : (Operation.packArguments args).uses = args := rfl
  simp only [Instr.temps_define, CallForm.uses_fixed, CallForm.uses_packed, hargs, List.mem_cons,
    List.mem_append] at ht ⊢
  tauto

theorem temps_foldCalls {code : List Instr} (hi : i ∈ foldCalls code) (ht : t ∈ i.temps) :
    ∃ j ∈ code, t ∈ j.temps := by
  induction code using List.twoStepInduction with
  | nil => cases hi
  | singleton j => exact ⟨i, hi, ht⟩
  | cons_cons j k rest ihrest ihcons =>
    cases hfold : j.foldCall? k with
    | some call =>
      rw [foldCalls_some hfold] at hi
      rcases List.mem_cons.1 hi with rfl | hi
      · rcases temps_foldCall? hfold ht with hj | hk
        · exact ⟨j, (.head _), hj⟩
        · exact ⟨k, .tail _ (.head _), hk⟩
      · obtain ⟨i', hi', ht'⟩ := ihrest hi
        exact ⟨i', .tail _ (.tail _ hi'), ht'⟩
    | none =>
      rw [foldCalls_none hfold] at hi
      rcases List.mem_cons.1 hi with rfl | hi
      · exact ⟨i, (.head _), ht⟩
      · obtain ⟨i', hi', ht'⟩ := ihcons k hi
        exact ⟨i', .tail _ hi', ht'⟩

end Fold

/-! ### Renaming -/

/-- The resume point with another name for its temp. -/
def ResumePoint.rename (ρ : Temp → Temp) (q : ResumePoint) : ResumePoint :=
  { q with result := q.result.map ρ }

/-- The second body is the first one with its temps under other names. The tables of temps agree on
the temps that occur in the code, and everything else is the same. -/
structure Body.RenamedBy (ρ : Equiv.Perm Temp) (b b' : Body) : Prop where
  code : b'.code = b.code.map (Instr.rename ρ)
  temps : ∀ i ∈ b.code, ∀ t ∈ i.temps, b'.temps[(ρ t).index]? = b.temps[t.index]?
  resumePoints : b'.resumePoints = b.resumePoints.map (ResumePoint.rename ρ)
  rest : b' = { b with code := b'.code, temps := b'.temps, resumePoints := b'.resumePoints }

theorem foldCall?_rename (ρ : Equiv.Perm Temp) (i j : Instr) :
    (i.rename ρ).foldCall? (j.rename ρ) = (i.foldCall? j).map (Instr.rename ρ) := by
  cases i with
  | define array op =>
    cases op with
    | packArguments args =>
      cases j with
      | define result op =>
        cases op with
        | callMember _ _ packed | callValuePacked _ _ packed =>
          by_cases hpacked : packed = array
          · subst hpacked
            simp [Instr.foldCall?, Instr.rename, Operation.rename, Operation.withUses, Operation.uses]
          · simp [Instr.foldCall?, Instr.rename, Operation.rename, Operation.withUses, Operation.uses,
              hpacked]
        | _ => rfl
      | _ => rfl
    | _ => rfl
  | _ => rfl

theorem foldCalls_rename (ρ : Equiv.Perm Temp) (code : List Instr) :
    foldCalls (code.map (Instr.rename ρ)) = (foldCalls code).map (Instr.rename ρ) := by
  induction code using List.twoStepInduction with
  | nil => rfl
  | singleton i => rfl
  | cons_cons i j rest ihrest ihcons =>
    have hrename := foldCall?_rename ρ i j
    cases hfold : i.foldCall? j with
    | some call =>
      rw [hfold] at hrename
      rw [foldCalls_some hfold, List.map_cons, List.map_cons, foldCalls_some hrename, ihrest,
        List.map_cons]
    | none =>
      rw [hfold] at hrename
      rw [foldCalls_none hfold, List.map_cons, List.map_cons, foldCalls_none hrename, ← List.map_cons,
        ihcons, List.map_cons]

namespace Body.RenamedBy

variable {ρ : Equiv.Perm Temp} {b b' : Body}

theorem foldCalls (h : b.RenamedBy ρ b') : b.foldCalls.RenamedBy ρ b'.foldCalls where
  code := by
    unfold Body.foldCalls
    rw [← foldCalls_rename, ← h.code]
  temps i hi t ht := by
    obtain ⟨j, hj, htj⟩ := temps_foldCalls hi ht
    exact h.temps j hj t htj
  resumePoints := h.resumePoints
  rest := congrArg Body.foldCalls h.rest

theorem symm (h : b.RenamedBy ρ b') : b'.RenamedBy ρ.symm b where
  code := by
    have hback : Instr.rename ρ.symm ∘ Instr.rename ρ = id := by
      funext i
      rw [Function.comp_apply, Instr.rename_rename, ρ.symm_comp_self, Instr.rename_id, id]
    rw [h.code, List.map_map, hback, List.map_id]
  temps i' hi' t' ht' := by
    rw [h.code] at hi'
    obtain ⟨i, hi, rfl⟩ := List.mem_map.1 hi'
    rw [Instr.temps_rename] at ht'
    obtain ⟨t, ht, rfl⟩ := List.mem_map.1 ht'
    rw [ρ.symm_apply_apply, h.temps i hi t ht]
  resumePoints := by
    have hback : ResumePoint.rename ρ.symm ∘ ResumePoint.rename ρ = id := by
      funext q
      simp [ResumePoint.rename]
    rw [h.resumePoints, List.map_map, hback, List.map_id]
  rest := by
    rw [h.rest]

end Body.RenamedBy

/-- Temps that are paired one to one are exchanged by a permutation. -/
theorem Pairing.exists_perm (h : (D.map Prod.fst).Nodup) (h' : (D.map Prod.snd).Nodup) :
    ∃ ρ : Equiv.Perm Temp, ∀ p ∈ D, ρ p.1 = p.2 := by
  induction D with
  | nil => exact ⟨Equiv.refl _, List.forall_mem_nil _⟩
  | cons p D ih =>
    obtain ⟨hp, h⟩ := List.nodup_cons.1 h
    obtain ⟨hp', h'⟩ := List.nodup_cons.1 h'
    obtain ⟨ρ, hρ⟩ := ih h h'
    refine ⟨ρ.trans (Equiv.swap (ρ p.1) p.2), List.forall_mem_cons.2 ⟨?_, fun q hq => ?_⟩⟩
    · exact Equiv.swap_apply_left _ _
    · have hne : q.2 ≠ ρ p.1 := by
        rw [← hρ q hq]
        intro heq
        exact hp (List.mem_map.2 ⟨q, hq, ρ.injective heq⟩)
      have hne' : q.2 ≠ p.2 := fun heq => hp' (List.mem_map.2 ⟨q, hq, heq⟩)
      rw [Equiv.trans_apply, hρ q hq, Equiv.swap_apply_of_ne_of_ne hne hne']

section Paired

theorem mem_of_linked {ts ts' : List Temp} (h : Linked D ts ts') : ts ⊆ D.map Prod.fst := by
  induction h with
  | nil => exact List.nil_subset _
  | cons ht _ ih => exact List.cons_subset.2 ⟨List.mem_map_of_mem ht, ih⟩

/-- The temps of a linked instruction are paired. -/
theorem Instr.Linked.temps_subset (h : i.Linked D i') : i.temps ⊆ D.map Prod.fst := by
  have hmem : ∀ {t t' : Temp}, (t, t') ∈ D → t ∈ D.map Prod.fst := List.mem_map_of_mem
  cases h with
  | define hresult hop => exact List.cons_subset.2 ⟨hmem hresult, mem_of_linked hop.uses⟩
  | perform heffect => exact mem_of_linked heffect.uses
  | bare hi =>
    cases i with
    | label _ | branch _ | leave _ | endFinally | dispatch _ _ => exact List.nil_subset _
    | _ => cases hi
  | branchIf ht | ret ht | raise ht | asyncReject ht => exact List.cons_subset.2 ⟨hmem ht, List.nil_subset _⟩
  | suspend ht hu =>
    exact List.cons_subset.2 ⟨hmem hu, List.cons_subset.2 ⟨hmem ht, List.nil_subset _⟩⟩

end Paired

theorem eq_map_of_forall₂ {α β : Type} {R : α → β → Prop} {f : α → β} {l : List α} {l' : List β}
    (h : List.Forall₂ R l l') (hR : ∀ a b, R a b → b = f a) : l' = l.map f := by
  induction h with
  | nil => rfl
  | cons hab _ ih => rw [List.map_cons, ← ih, ← hR _ _ hab]

section Linked

variable {ρ : Temp → Temp} (hρ : ∀ p ∈ D, ρ p.1 = p.2)

include hρ

theorem map_of_linked {ts ts' : List Temp} (h : Linked D ts ts') : ts' = ts.map ρ :=
  eq_map_of_forall₂ h fun t t' ht => (hρ (t, t') ht).symm

theorem Operation.Linked.rename {op op' : Operation} (h : op.Linked D op') : op' = op.rename ρ := by
  rw [Operation.rename, ← map_of_linked hρ h.uses, h.same]

theorem Effect.Linked.rename {effect effect' : Effect} (h : effect.Linked D effect') :
    effect' = effect.rename ρ := by
  rw [Effect.rename, ← map_of_linked hρ h.uses, h.same]

theorem Instr.Linked.rename (h : i.Linked D i') : i' = i.rename ρ := by
  cases h with
  | define hresult hop => rw [Instr.rename, hρ _ hresult, ← hop.rename hρ]
  | perform heffect => rw [Instr.rename, ← heffect.rename hρ]
  | bare hi => cases i <;> first | rfl | cases hi
  | branchIf ht => rw [Instr.rename, hρ _ ht]
  | ret ht => rw [Instr.rename, hρ _ ht]
  | raise ht => rw [Instr.rename, hρ _ ht]
  | asyncReject ht => rw [Instr.rename, hρ _ ht]
  | suspend ht hu => rw [Instr.rename, hρ _ ht, hρ _ hu]

theorem ResumePoint.Linked.rename {q q' : ResumePoint} (h : q.Linked D q') : q' = q.rename ρ := by
  obtain ⟨state, label, result, kind⟩ := q
  obtain ⟨state', label', result', kind'⟩ := q'
  obtain ⟨rfl, rfl, rfl, hresult⟩ := h
  cases result <;> cases result'
  · rfl
  · exact hresult.elim
  · exact hresult.elim
  · rw [ResumePoint.rename, Option.map_some, hρ _ hresult]

end Linked

/-! ### Unpacked bodies -/

namespace Segment

variable {g : Segment}

/-- The code of the first side, with the array folded into the call. -/
def folded : Segment → Instr
  | .single i _ => i
  | .packed form _ result _ _ args _ => .define result (form.fixed args)

theorem Linked.second_eq {ρ : Temp → Temp} (h : g.Linked D)
    (hρ : ∀ p ∈ D, ρ p.1 = p.2) : g.second = g.folded.rename ρ := by
  cases g with
  | single i i' => exact Instr.Linked.rename hρ h
  | packed form form' result result' array args args' =>
    exact Instr.Linked.rename hρ (.define h.2.2 (h.1.fixed h.2.1))

theorem Linked.temps_folded (h : g.Linked D) :
    g.folded.temps ⊆ D.map Prod.fst := by
  cases g with
  | single i i' => exact Instr.Linked.temps_subset h
  | packed form form' result result' array args args' =>
    exact (Instr.Linked.define h.2.2 (h.1.fixed h.2.1)).temps_subset

end Segment

/-- In the second body some calls with an argument array that is built right in front of them, and
that nothing else reads, are replaced by calls of fixed arity. -/
structure Body.Unpacks (G : List Segment) (b c : Body) : Prop where
  first : b.code = G.flatMap Segment.first
  folded : c = { b with code := G.map Segment.folded }
  nodup : (G.filterMap Segment.array?).Nodup
  unread : ∀ a ∈ G.filterMap Segment.array?, ∀ i ∈ c.code, a ∉ i.temps
  arrays : ∀ a ∈ G.filterMap Segment.array?, a.index < b.temps.size

theorem foldCalls_segments (G : List Segment) :
    foldCalls (G.flatMap Segment.first) = foldCalls (G.map Segment.folded) := by
  induction G using List.twoStepInduction with
  | nil => rfl
  | singleton g =>
    cases g with
    | single i i' => rfl
    | packed form form' result result' array args args' => exact foldCalls_some (foldCall?_packed ..)
  | cons_cons g g' G ih ihcons =>
    have htail := ihcons g'
    cases g with
    | packed form form' result result' array args args' =>
      refine (foldCalls_some (foldCall?_packed ..)).trans ?_
      refine Eq.trans ?_ (foldCalls_cons (foldCall?_fixed form result args)).symm
      exact congrArg _ htail
    | single i i' =>
      cases g' with
      | packed form form' result result' array args args' =>
        have hfirst : i.foldCall? (.define array (.packArguments args)) = none :=
          foldCall?_eq_none fun form _ => by cases form <;> exact fun heq => by cases heq
        have hfolded : i.foldCall? (.define result (form.fixed args)) = none :=
          foldCall?_eq_none fun form' _ => by
            cases form <;> cases form' <;> exact fun heq => by cases heq
        exact (foldCalls_none hfirst).trans ((congrArg _ htail).trans (foldCalls_none hfolded).symm)
      | single j j' =>
        cases hfold : i.foldCall? j with
        | some call =>
          exact (foldCalls_some hfold).trans ((congrArg _ ih).trans (foldCalls_some hfold).symm)
        | none => exact (foldCalls_none hfold).trans ((congrArg _ htail).trans (foldCalls_none hfold).symm)

theorem Body.Unpacks.foldCalls {G : List Segment} {b c : Body} (h : b.Unpacks G c) :
    b.foldCalls = c.foldCalls := by
  obtain rfl := h.folded
  unfold Body.foldCalls
  rw [h.first, foldCalls_segments]

/-! ### Finished bodies -/

/-- The instruction with the table of resume points, if it is a dispatch. -/
def Instr.fill (points : List ResumePoint) : Instr → Instr
  | .dispatch _ start => .dispatch (points.map fun p => ⟨p.state, p.label⟩) start
  | i => i

theorem fillDispatch_eq (points : List ResumePoint) (code : List Instr) :
    fillDispatch points code = code.modifyHead (Instr.fill points) := by
  cases code with
  | nil => rfl
  | cons i code => cases i <;> rfl

theorem fillDispatch_rename (points : List ResumePoint) (ρ : Temp → Temp) (code : List Instr) :
    fillDispatch (points.map (ResumePoint.rename ρ)) code = fillDispatch points code := by
  have hfill : Instr.fill (points.map (ResumePoint.rename ρ)) = Instr.fill points := by
    funext i
    cases i with
    | dispatch targets start =>
      simp only [Instr.fill, List.map_map]
      rfl
    | _ => rfl
  rw [fillDispatch_eq, fillDispatch_eq, hfill]

theorem Instr.Linked.fill (points : List ResumePoint) (h : i.Linked D i') :
    (i.fill points).Linked D (i'.fill points) := by
  cases h with
  | bare hi =>
    cases i with
    | dispatch targets start => exact .bare rfl
    | _ => exact .bare hi
  | define hresult hop => exact .define hresult hop
  | perform heffect => exact .perform heffect
  | branchIf ht => exact .branchIf ht
  | ret ht => exact .ret ht
  | raise ht => exact .raise ht
  | asyncReject ht => exact .asyncReject ht
  | suspend ht hu => exact .suspend ht hu

/-- The segment with the table of resume points, if it is a dispatch. -/
def Segment.fill (points : List ResumePoint) : Segment → Segment
  | .single i i' => .single (i.fill points) (i'.fill points)
  | g => g

/-- The table of resume points goes into the first segment. -/
theorem fillDispatch_segments {w : Alignment} (points : List ResumePoint)
    (h : ∀ g ∈ w.segments, g.Linked w.pairs) :
    ∃ G : List Segment,
      fillDispatch points (w.segments.flatMap Segment.first) = G.flatMap Segment.first ∧
      fillDispatch points (w.segments.map Segment.second) = G.map Segment.second ∧
      G.filterMap Segment.array? = w.arrays ∧ ∀ g ∈ G, g.Linked w.pairs := by
  obtain ⟨pairs, segments⟩ := w
  rw [fillDispatch_eq, fillDispatch_eq]
  cases segments with
  | nil => exact ⟨[], rfl, rfl, rfl, h⟩
  | cons g G =>
    obtain ⟨hg, hG⟩ := List.forall_mem_cons.1 h
    refine ⟨g.fill points :: G, ?_⟩
    cases g with
    | single i i' => exact ⟨rfl, rfl, rfl, List.forall_mem_cons.2 ⟨Instr.Linked.fill points hg, hG⟩⟩
    | packed => exact ⟨rfl, rfl, rfl, h⟩

namespace Session.Aligned

variable {w : Alignment} {s s' : Session}

/-- The code of the bodies is made of segments. -/
theorem code (h : Aligned w s s') (f : Function) {ρ : Temp → Temp}
    (hpoints : s'.resumePoints.toList = s.resumePoints.toList.map (ResumePoint.rename ρ)) :
    ∃ G : List Segment, (s.toBody f).code = G.flatMap Segment.first ∧
      (s'.toBody f).code = G.map Segment.second ∧ G.filterMap Segment.array? = w.arrays ∧
      ∀ g ∈ G, g.Linked w.pairs := by
  unfold Session.toBody
  rw [h.first, h.second, hpoints, fillDispatch_rename]
  dsimp only
  split
  · exact fillDispatch_segments _ h.linked
  · exact ⟨w.segments, rfl, rfl, rfl, h.linked⟩

/-- The second body is the first one with some calls unpacked and the temps renamed. -/
theorem toBody (h : Aligned w s s') (f : Function) :
    ∃ G ρ c, (s.toBody f).Unpacks G c ∧ c.RenamedBy ρ (s'.toBody f) := by
  obtain ⟨ρ, hρ⟩ := Pairing.exists_perm (List.nodup_append.1 h.nodup).1 h.nodup'
  have hpoints := eq_map_of_forall₂ h.points fun _ _ hq => hq.rename hρ
  obtain ⟨G, hfirst, hsecond, harrays, hlinked⟩ := h.code f hpoints
  have hpaired : ∀ i ∈ G.map Segment.folded, i.temps ⊆ w.pairs.map Prod.fst := by
    intro i hi
    obtain ⟨g, hg, rfl⟩ := List.mem_map.1 hi
    exact (hlinked g hg).temps_folded
  refine ⟨G, ρ, { s.toBody f with code := G.map Segment.folded }, ?_, ?_⟩
  · refine ⟨hfirst, rfl, ?_, fun a ha i hi ht => ?_, fun a ha => ?_⟩
    · rw [harrays]
      exact (List.nodup_append.1 h.nodup).2.1
    · rw [harrays] at ha
      exact (List.nodup_append.1 h.nodup).2.2 a (hpaired i hi ht) a ha rfl
    · rw [harrays] at ha
      simpa [Session.toBody] using h.arrays a ha
  · refine ⟨?_, fun i hi t ht => ?_, hpoints, ?_⟩
    · rw [hsecond, List.map_map]
      exact List.map_congr_left fun g hg => (hlinked g hg).second_eq hρ
    · obtain ⟨p, hp, rfl⟩ := List.mem_map.1 (hpaired i hi ht)
      obtain ⟨storage, hstorage, hstorage'⟩ := h.storages p hp
      rw [hρ p hp]
      simp [Session.toBody, hstorage, hstorage']
    · unfold Session.toBody Session.singleAssignment
      rw [h.rest]

end Session.Aligned

end ScriptLowering
