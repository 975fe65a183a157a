import Mathlib.Data.Set.Image
import ScriptLowering.Proofs.Revision.Passes
import ScriptLowering.Proofs.SetBeforeRead
import ScriptLowering.Proofs.Span

/-!
# Well-nested regions

A protected range and its handler are stretches of the code between two labels. In a compiled body
any two of them are apart or one lies inside the other, jumps respect them, and each handler begins
and ends as its kind requires. `Body.WellNested` collects all this in terms of label positions only.

The proof goes from the outline of the lowered code to the positions of its regions (`Laid`), from
there to the code of the body, and through the passes, which only trim the code.

## Main results

* `Laid.follow`: what is laid out stays so when positions keep their order;
* `Function.compile_wellNested`.
-/

namespace ScriptLowering

variable {body : Body} {f : Function} {i : Instr} {code code' : List Instr} {options : Options}
  {registry : Registry} {tree : ScopeTree} {s s' : Span}

/-! ### Ranges of a body -/

/-- The label in front of the range of a region, or of its handler. -/
def ExceptionRegion.first (r : ExceptionRegion) (inHandler : Bool) : Label :=
  if inHandler then r.handlerStart else r.tryStart

/-- The label behind the range of a region, or behind its handler. -/
def ExceptionRegion.last (r : ExceptionRegion) (inHandler : Bool) : Label :=
  if inHandler then r.handlerEnd else r.tryEnd

/-- The target of an instruction that branches without leaving anything. -/
def Instr.branchTarget? : Instr → Option Label
  | .branch target | .branchIf _ _ target => some target
  | _ => none

/-- The instruction finishes the function, suspends it, or enters it again. -/
def Instr.isGate : Instr → Bool
  | .ret _ | .asyncReject _ | .suspend .. | .dispatch .. => true
  | _ => false

namespace Body

/-- The position lies in the range of the region, or in its handler. -/
def Covers (b : Body) (r : ExceptionRegion) (inHandler : Bool) (n : Nat) : Prop :=
  ∃ first last, b.Placed (r.first inHandler) first ∧ b.Placed (r.last inHandler) last ∧
    first ≤ n ∧ n < last

/-- The instruction at the position is no label. -/
def Acts (b : Body) (n : Nat) : Prop :=
  ∃ i, b.code[n]? = some i ∧ ∀ l, i ≠ .label l

/-- The first instruction in a handler that is no label. -/
structure Begins (b : Body) (r : ExceptionRegion) (n : Nat) : Prop where
  covers : b.Covers r true n
  acts : b.Acts n
  before : ∀ m < n, b.Covers r true m → ¬ b.Acts m

/-- The last instruction in a range or handler that is no label. -/
structure Ends (b : Body) (r : ExceptionRegion) (inHandler : Bool) (n : Nat) : Prop where
  covers : b.Covers r inHandler n
  acts : b.Acts n
  behind : ∀ m, n < m → b.Covers r inHandler m → ¬ b.Acts m

/-- The protected regions of the body are well nested, and only entered and left as they may be. -/
structure WellNested (b : Body) : Prop where
  /-- A label has one position. -/
  unique : ∀ {l n m}, b.Placed l n → b.Placed l m → n = m
  /-- The handler follows its range. -/
  ordered : ∀ r ∈ b.regions, ∃ start mid stop, b.Placed r.tryStart start ∧ b.Placed r.tryEnd mid ∧
    b.Placed r.handlerStart mid ∧ b.Placed r.handlerEnd stop ∧ start < mid ∧ mid < stop
  /-- Ranges and handlers are apart, or one lies inside the other. -/
  nested : ∀ r ∈ b.regions, ∀ r' ∈ b.regions, ∀ h h', (∀ n, b.Covers r h n → ¬ b.Covers r' h' n) ∨
    (∀ n, b.Covers r h n → b.Covers r' h' n) ∨ ∀ n, b.Covers r' h' n → b.Covers r h n
  /-- A region inside another one is listed first. -/
  listed : ∀ {i j : Nat} {r r' : ExceptionRegion} {h h' : Bool}, b.regions[i]? = some r →
    b.regions[j]? = some r' → i ≠ j → (∀ n, b.Covers r h n → b.Covers r' h' n) → i < j
  /-- A branch leads neither into nor out of a range. -/
  branch : ∀ {n i l}, b.code[n]? = some i → i.branchTarget? = some l →
    ∃ m, b.Placed l m ∧ ∀ r ∈ b.regions, ∀ h, b.Covers r h m ↔ b.Covers r h n
  /-- A `leave` leads into no range, and not out of a finally handler. -/
  leave : ∀ {n l}, b.code[n]? = some (.leave l) → ∃ m, b.Placed l m ∧ ∀ r ∈ b.regions, ∀ h,
    (b.Covers r h m → b.Covers r h n) ∧
    (b.Covers r h n → ¬ b.Covers r h m → ¬ (h = true ∧ r.kind = .finallyHandler))
  /-- The function is finished, suspended and entered outside of all ranges. -/
  gate : ∀ {n i}, b.code[n]? = some i → i.isGate = true → ∀ r ∈ b.regions, ∀ h, ¬ b.Covers r h n
  point : ∀ p ∈ b.resumePoints, ∃ n, b.Placed p.label n ∧ ∀ r ∈ b.regions, ∀ h, ¬ b.Covers r h n
  /-- Finally handlers end by handing control back, and nothing else does. -/
  endFinally : ∀ n, b.code[n]? = some .endFinally ↔
    ∃ r ∈ b.regions, r.kind = .finallyHandler ∧ b.Ends r true n
  /-- Catch handlers begin by loading the exception, and nothing else does. -/
  loadException : ∀ n, (∃ t, b.code[n]? = some (.define t .loadException)) ↔
    ∃ r ∈ b.regions, r.kind = .catchHandler ∧ b.Begins r n
  begins : ∀ r ∈ b.regions, r.kind = .catchHandler → ∃ n, b.Begins r n
  /-- Every range and handler ends by leaving it. -/
  ends : ∀ r ∈ b.regions, ∀ h, ∃ n, b.Ends r h n ∧
    (b.code[n]? = some .endFinally ∨ ∃ l, b.code[n]? = some (.leave l))

end Body

/-! ### Positions of regions -/

/-- Code whose regions stand at the given spans, with the given resume points. -/
structure Laid (code : List Instr) (spans : List Span) (points : List ResumePoint) : Prop where
  unique : ∀ {l : Label} {n m : Nat}, code[n]? = some (.label l) → code[m]? = some (.label l) → n = m
  sound : ∀ s ∈ spans, s.Sound code
  order : spans.Pairwise Span.Precedes
  branch : ∀ {n : Nat} {i : Instr} {l : Label}, code[n]? = some i → i.branchTarget? = some l →
    ∃ m : Nat, code[m]? = some (.label l) ∧ around spans m = around spans n
  leave : ∀ {n : Nat} {l : Label}, code[n]? = some (.leave l) → ∃ m : Nat,
    code[m]? = some (.label l) ∧ around spans m ⊆ around spans n ∧
    ∀ p ∈ around spans n, p ∉ around spans m → ¬ p.1.IsFinally p.2
  gate : ∀ {n : Nat} {i : Instr}, code[n]? = some i → i.isGate = true → around spans n = ∅
  point : ∀ p ∈ points, ∃ m : Nat, code[m]? = some (.label p.label) ∧ around spans m = ∅
  endFinally : ∀ {n : Nat}, code[n]? = some .endFinally →
    ∃ s ∈ spans, s.exception = none ∧ n + 1 = s.stop
  loadException : ∀ {n : Nat} {t : Temp}, code[n]? = some (.define t .loadException) →
    ∃ s ∈ spans, s.exception = some t ∧ n = s.mid + 1

theorem LeavesBetween.lt {first last : Nat} (h : LeavesBetween code first last) :
    first < last := by
  obtain ⟨n, hfirst, hlast, -⟩ := h
  omega

theorem Span.Sound.rangeEnd (h : s.Sound code) :
    code[s.mid]? = some (.label s.region.tryEnd) :=
  h.tryEnd ▸ h.mid

/-- The labels of a span stand in order. -/
theorem Span.Sound.lt (h : s.Sound code) :
    s.start < s.mid ∧ s.mid < s.stop :=
  ⟨h.rangeLeaves.lt, h.handlerLeaves.lt⟩

namespace Instr

variable {f : Function} {z : Session} {J : Jumps} {i : Instr} {l : Label}

theorem Legal.branchTarget_mem (h : i.Legal f z J) (hl : i.branchTarget? = some l) :
    l ∈ J.branch := by
  cases i with
  | branch target => exact Option.some.inj hl ▸ h
  | branchIf expected condition target => exact Option.some.inj hl ▸ h
  | _ => cases hl

theorem Legal.isNative_of_isGate (h : i.Legal f z J) (hi : i.isGate) :
    J.isNative = false := by
  cases i with
  | ret value => exact h
  | asyncReject reason => exact h
  | suspend => exact h.2.1
  | dispatch => exact h.2.2.1
  | _ => cases hi

theorem isSoft_of_isGate (h : i.isGate) : i.isSoft = false := by
  cases i with
  | define t op => cases h
  | perform effect => cases h
  | _ => rfl

end Instr

/-- The jumps on the outermost level fit it. -/
theorem Outline.fits_self (o : Outline) :
    ((Jumps.ofFrames []).withLabels o.tops).Fits o.code (o.spans 0) ∅ :=
  o.level_self.fits_tops o.standsAt_self
    ⟨by simp [Jumps.ofFrames], by simp [Jumps.ofFrames], by simp, by simp⟩

namespace Finished

variable {U : Set Cell} {ctx : Context} {s : Session} {o : Outline}

/-- Every instruction of a finished session stands where it may. -/
theorem stands (h : Finished U ctx s o) {n : Nat} {i : Instr} (hi : o.code[n]? = some i) :
    Outline.Standing ctx.function s o.code (o.spans 0) (o.spans 0) n i := by
  have hn := (List.getElem?_eq_some_iff.1 hi).1
  exact h.legal.stands o.fits_self o.level_self o.standsAt_self (Nat.zero_le n) (by omega) hi

/-- The regions of the code that a finished session describes stand where its outline says. -/
theorem laid (h : Finished U ctx s o) : Laid o.code (o.spans 0) o.points := by
  refine ⟨eq_of_placed h.nodup, fun s hs => h.legal.spans_sound o.standsAt_self hs,
    o.spans_pairwise 0, ?_, ?_, ?_,
    fun p hp => h.legal.point_stands o.fits_self o.level_self o.standsAt_self hp, ?_, ?_⟩
  · intro n i l hi hl
    cases h.stands hi with
    | legal J hlegal hfits => exact hfits.branch l (hlegal.branchTarget_mem hl)
    | label l' h' => subst h'; cases hl
    | closes _ _ _ _ h' => subst h'; cases hl
    | opens _ _ _ _ _ h' => subst h'; cases hl
  · intro n l hi
    cases h.stands hi with
    | legal J hlegal hfits =>
      rcases hlegal with hlegal | hlegal | ⟨hexit, e, he, rfl⟩
      · obtain ⟨m, hm, haround⟩ := hfits.branch l hlegal
        exact ⟨m, hm, haround.subset, fun p hp hout => (hout (haround ▸ hp)).elim⟩
      · exact hfits.leave l hlegal
      · obtain ⟨m, -, -, hm, hout⟩ := Outline.exists_top (h.exit e he) o.standsAt_self
        have haround : around (o.spans 0) m = ∅ :=
          Set.eq_empty_iff_forall_notMem.2 fun p hp => hout p.1 hp.1 p.2 hp.2
        exact ⟨m, hm, haround ▸ Set.empty_subset _, fun p hp _ => hfits.exit hexit p hp⟩
    | label l' h' => cases h'
    | closes _ _ _ _ h' => cases h'
    | opens _ _ _ _ _ h' => cases h'
  · intro n i hi hgate
    cases h.stands hi with
    | legal J hlegal hfits => exact hfits.native (hlegal.isNative_of_isGate hgate)
    | label l' h' => subst h'; cases hgate
    | closes _ _ _ _ h' => subst h'; cases hgate
    | opens _ _ _ _ _ h' => subst h'; cases hgate
  · intro n hi
    cases h.stands hi with
    | legal J hlegal hfits => exact hlegal.elim
    | label l' h' => cases h'
    | closes s hs hnone hn _ => exact ⟨s, hs, hnone, hn⟩
    | opens _ _ _ _ _ h' => cases h'
  · intro n t hi
    cases h.stands hi with
    | legal J hlegal hfits => exact hlegal.elim
    | label l' h' => cases h'
    | closes _ _ _ _ h' => cases h'
    | opens s hs t' hsome hn h' =>
      obtain rfl : t = t' := by simpa using h'
      exact ⟨s, hs, hsome, hn⟩

end Finished

/-! ### Moving the code -/

/-- The instruction is the same in all codes of a body, from lowering to the last pass. -/
def Instr.isRigid : Instr → Bool
  | .label _ | .leave _ | .branch _ | .branchIf .. | .endFinally | .define _ .loadException => true
  | _ => false

/-- The second code has all rigid instructions of the first one, in the same order, and what is at
the position `n` of the first code moves to `f n`. -/
structure Follows (code code' : List Instr) (f : Nat → Nat) : Prop where
  mono : Monotone f
  keeps : ∀ {n : Nat} {i : Instr}, code[n]? = some i → i.isRigid = true →
    code'[f n]? = some i ∧ f (n + 1) = f n + 1
  source : ∀ {m : Nat} {i' : Instr}, code'[m]? = some i' → ∃ (n : Nat) (i : Instr),
    code[n]? = some i ∧ f n = m ∧ f (n + 1) = m + 1 ∧
    (i.isRigid = true ∨ i'.isRigid = true → i' = i) ∧ (i'.isGate = true → i.isGate = true)

theorem Instr.isSoft_of_isRigid (h : i.isRigid) : i.isSoft = false := by
  unfold isRigid at h
  split at h <;> first | rfl | cases h

theorem Trims.Positions.follows {f : Nat → Nat}
    (h : Positions code code' f) : Follows code code' f where
  mono := h.mono
  keeps hi hrigid := h.keeps hi (Instr.isSoft_of_isRigid hrigid)
  source hi' := by
    obtain ⟨n, i, hi, hn, hnext, hsame⟩ := h.source hi'
    refine ⟨n, i, hi, hn, hnext, fun hrigid => ?_, fun hgate => ?_⟩
    · rcases hsame with rfl | ⟨hsoft, hsoft'⟩
      · rfl
      · rcases hrigid with hrigid | hrigid
        · simp [Instr.isSoft_of_isRigid hrigid] at hsoft
        · simp [Instr.isSoft_of_isRigid hrigid] at hsoft'
    · rcases hsame with rfl | ⟨-, hsoft'⟩
      · exact hgate
      · simp [Instr.isSoft_of_isGate hgate] at hsoft'

theorem Instr.eq_of_plain_eq {j : Instr} (h : j.plain = i.plain)
    (hrigid : i.isRigid = true ∨ j.isRigid = true) : j = i := by
  have hself : ∀ {i j : Instr}, i.isRigid = true → j.plain = i.plain → j = i := by
    intro i j hi hplain
    have hi' : i.plain = i := by
      unfold isRigid at hi
      split at hi <;> first | rfl | cases hi
    rw [hi'] at hplain
    unfold plain unfused at hplain
    split at hplain
    · subst hplain
      cases hi
    · split at hplain
      · subst hplain
        cases hi
      · exact hplain
  rcases hrigid with hi | hj
  · exact hself hi h
  · exact (hself hj h.symm).symm

theorem Instr.isGate_plain (i : Instr) : i.plain.isGate = i.isGate := by
  unfold plain unfused
  split
  · rfl
  · split <;> rfl

/-- Codes that agree up to fused additions and dispatch tables. -/
theorem follows_of_plain
    (h : code'.map Instr.plain = code.map Instr.plain) : Follows code code' id := by
  have hget : ∀ n : Nat, code'[n]?.map Instr.plain = code[n]?.map Instr.plain := fun n => by
    rw [← List.getElem?_map, h, List.getElem?_map]
  refine ⟨monotone_id, fun {n i} hi hrigid => ⟨?_, rfl⟩, fun {m i'} hi' => ?_⟩
  · obtain ⟨j, hj, hplain⟩ := Option.map_eq_some_iff.1 ((hget n).trans (by rw [hi, Option.map_some]))
    exact Instr.eq_of_plain_eq hplain (.inl hrigid) ▸ hj
  · obtain ⟨i, hi, hplain⟩ := Option.map_eq_some_iff.1
      ((hget m).symm.trans (by rw [hi', Option.map_some]))
    refine ⟨m, i, hi, rfl, rfl, fun hrigid => Instr.eq_of_plain_eq hplain.symm hrigid, fun hgate => ?_⟩
    rwa [← Instr.isGate_plain, hplain, Instr.isGate_plain]

/-- The span behind a move of the code. -/
def Span.move (f : Nat → Nat) (s : Span) : Span :=
  { s with start := f s.start, mid := f s.mid, stop := f s.stop }

namespace Follows

variable {code code' : List Instr} {f : Nat → Nat} {n m : Nat} {s : Span} {spans : List Span}
variable {l : Label}

/-- A position that is kept stays in front of the positions behind it. -/
theorem lt_iff (h : Follows code code' f) (hn : f (n + 1) = f n + 1) : f n < f m ↔ n < m := by
  constructor
  · intro hlt
    by_contra hle
    have := h.mono (Nat.le_of_not_lt hle)
    omega
  · intro hlt
    have := h.mono (Nat.succ_le_of_lt hlt)
    simp only [Nat.succ_eq_add_one] at this
    omega

theorem kept (h : Follows code code' f) (hn : code[n]? = some (.label l)) :
    f (n + 1) = f n + 1 :=
  (h.keeps hn rfl).2

theorem has_move (h : Follows code code' f) (hn : f (n + 1) = f n + 1) (b : Bool) :
    (s.move f).Has b (f n) ↔ s.Has b n := by
  have hstart : f s.start ≤ f n ↔ s.start ≤ n := by
    rw [← Nat.not_lt, h.lt_iff hn, Nat.not_lt]
  have hmid : f s.mid ≤ f n ↔ s.mid ≤ n := by
    rw [← Nat.not_lt, h.lt_iff hn, Nat.not_lt]
  cases b <;> simp [Span.move, hstart, hmid, h.lt_iff hn]

/-- The ranges around a kept position move along. -/
theorem around_move (h : Follows code code' f) (hn : f (n + 1) = f n + 1) :
    around (spans.map (Span.move f)) (f n) = (fun p => (p.1.move f, p.2)) '' around spans n := by
  ext ⟨s', b⟩
  constructor
  · rintro ⟨hs', hhas⟩
    obtain ⟨s, hmem, rfl⟩ := List.mem_map.1 hs'
    exact ⟨(s, b), ⟨hmem, (h.has_move hn b).1 hhas⟩, rfl⟩
  · rintro ⟨⟨s, b'⟩, ⟨hmem, hhas⟩, heq⟩
    obtain ⟨rfl, rfl⟩ := Prod.mk.inj heq
    exact ⟨List.mem_map_of_mem hmem, (h.has_move hn b').2 hhas⟩

theorem leavesBetween (h : Follows code code' f) {first last : Nat} {l' : Label}
    (hfirst : code[first]? = some (.label l)) (hlast : code[last]? = some (.label l'))
    (hbetween : LeavesBetween code first last) : LeavesBetween code' (f first) (f last) := by
  obtain ⟨n, hn, hn', hleave, hlabels⟩ := hbetween
  have hkept : f (n + 1) = f n + 1 ∧ (code'[f n]? = some .endFinally ∨
      ∃ l, code'[f n]? = some (.leave l)) := by
    rcases hleave with hend | ⟨l, hleave⟩
    · exact ⟨(h.keeps hend rfl).2, .inl (h.keeps hend rfl).1⟩
    · exact ⟨(h.keeps hleave rfl).2, .inr ⟨l, (h.keeps hleave rfl).1⟩⟩
  refine ⟨f n, (h.lt_iff (h.kept hfirst)).2 hn, (h.lt_iff hkept.1).2 hn', hkept.2,
    fun m' hm' hm'' => ?_⟩
  have hlength := (List.getElem?_eq_some_iff.1 (h.keeps hlast rfl).1).1
  have hget : code'[m']? = some code'[m'] := List.getElem?_eq_getElem (by omega)
  obtain ⟨m, i, hi, rfl, hkept', hsame, -⟩ := h.source hget
  obtain ⟨l'', hl''⟩ := hlabels m ((h.lt_iff hkept.1).1 hm') ((h.lt_iff hkept').1 hm'')
  obtain rfl : i = .label l'' := by simpa [hi] using hl''
  exact ⟨l'', hget.trans (congrArg some (hsame (.inl rfl)))⟩

theorem sound (h : Follows code code' f) (hs : s.Sound code) : (s.move f).Sound code' where
  start := (h.keeps hs.start rfl).1
  mid := (h.keeps hs.mid rfl).1
  stop := (h.keeps hs.stop rfl).1
  tryEnd := hs.tryEnd
  kind := hs.kind
  opens t ht := by
    obtain ⟨hlt, hload⟩ := hs.opens t ht
    obtain ⟨hload', hnext⟩ := h.keeps hload rfl
    rw [h.kept hs.mid] at hload' hnext
    refine ⟨?_, hload'⟩
    have := h.mono hlt
    simp only [Nat.succ_eq_add_one] at this
    show f s.mid + 1 < f s.stop
    omega
  closes hnone := by
    obtain ⟨n, hn, hn', hend⟩ := hs.closes hnone
    obtain ⟨hend', hnext⟩ := h.keeps hend rfl
    exact ⟨f n, (h.lt_iff (h.kept hs.mid)).2 hn, by rw [← hnext, hn']; rfl, hend'⟩
  rangeLeaves := h.leavesBetween hs.start hs.mid hs.rangeLeaves
  handlerLeaves := h.leavesBetween hs.mid hs.stop hs.handlerLeaves

theorem precedes {s' : Span} (h : Follows code code' f) (hs : s.Sound code) (hs' : s'.Sound code)
    (hlt : s.Precedes s') : (s.move f).Precedes (s'.move f) := by
  rcases hlt with hlt | ⟨hlt, hlt'⟩ | ⟨hlt, hlt'⟩
  · exact .inl ((h.lt_iff (h.kept hs.stop)).2 hlt)
  · exact .inr (.inl ⟨(h.lt_iff (h.kept hs'.start)).2 hlt, (h.lt_iff (h.kept hs.stop)).2 hlt'⟩)
  · exact .inr (.inr ⟨(h.lt_iff (h.kept hs'.mid)).2 hlt, (h.lt_iff (h.kept hs.stop)).2 hlt'⟩)

end Follows

/-- Regions stay laid out when the code moves. -/
theorem Laid.follow {f : Nat → Nat} {spans : List Span}
    {points : List ResumePoint} (h : Laid code spans points) (hf : Follows code code' f) :
    Laid code' (spans.map (Span.move f)) points where
  unique {l n' m'} hn' hm' := by
    obtain ⟨n, i, hi, rfl, -, hsame, -⟩ := hf.source hn'
    obtain ⟨m, j, hj, rfl, -, hsame', -⟩ := hf.source hm'
    obtain rfl := hsame (.inr rfl)
    obtain rfl := hsame' (.inr rfl)
    rw [h.unique hi hj]
  sound := by
    intro s' hs'
    obtain ⟨s, hs, rfl⟩ := List.mem_map.1 hs'
    exact hf.sound (h.sound s hs)
  order := by
    rw [List.pairwise_map]
    exact h.order.imp_of_mem fun ha hb hlt => hf.precedes (h.sound _ ha) (h.sound _ hb) hlt
  branch {n' i' l} hi' hl := by
    obtain ⟨n, i, hi, rfl, hkept, hsame, -⟩ := hf.source hi'
    have hrigid : i'.isRigid = true := by
      cases i' with
      | branch target => rfl
      | branchIf expected condition target => rfl
      | _ => cases hl
    obtain rfl := hsame (.inr hrigid)
    obtain ⟨m, hm, haround⟩ := h.branch hi hl
    refine ⟨f m, (hf.keeps hm rfl).1, ?_⟩
    rw [hf.around_move (hf.kept hm), hf.around_move hkept, haround]
  leave {n' l} hi' := by
    obtain ⟨n, i, hi, rfl, hkept, hsame, -⟩ := hf.source hi'
    obtain rfl := hsame (.inr rfl)
    obtain ⟨m, hm, hsub, hfinally⟩ := h.leave hi
    refine ⟨f m, (hf.keeps hm rfl).1, ?_⟩
    rw [hf.around_move (hf.kept hm), hf.around_move hkept]
    refine ⟨Set.image_mono hsub, ?_⟩
    rintro _ ⟨p, hp, rfl⟩ hout
    exact hfinally p hp fun hp' => hout ⟨p, hp', rfl⟩
  gate {n' i'} hi' hgate := by
    obtain ⟨n, i, hi, rfl, hkept, -, hgate'⟩ := hf.source hi'
    rw [hf.around_move hkept, h.gate hi (hgate' hgate), Set.image_empty]
  point p hp := by
    obtain ⟨m, hm, haround⟩ := h.point p hp
    exact ⟨f m, (hf.keeps hm rfl).1, by rw [hf.around_move (hf.kept hm), haround, Set.image_empty]⟩
  endFinally {n'} hi' := by
    obtain ⟨n, i, hi, rfl, hkept, hsame, -⟩ := hf.source hi'
    obtain rfl := hsame (.inr rfl)
    obtain ⟨s, hs, hnone, hn⟩ := h.endFinally hi
    exact ⟨s.move f, List.mem_map_of_mem hs, hnone, by rw [← hkept, hn]; rfl⟩
  loadException {n' t} hi' := by
    obtain ⟨n, i, hi, rfl, -, hsame, -⟩ := hf.source hi'
    obtain rfl := hsame (.inr rfl)
    obtain ⟨s, hs, hsome, rfl⟩ := h.loadException hi
    exact ⟨s.move f, List.mem_map_of_mem hs, hsome, hf.kept (h.sound s hs).mid⟩

/-! ### From positions to labels -/

/-- Two ranges or handlers of different regions are apart, or the one of the region that is listed
first lies inside the other. -/
theorem Span.Precedes.apart_or_inside (h : s.Precedes s')
    (hs : s.Sound code) (hs' : s'.Sound code) (b b' : Bool) :
    (∀ n, s.Has b n → ¬ s'.Has b' n) ∨ ∀ n, s.Has b n → s'.Has b' n := by
  obtain ⟨hlt, hlt'⟩ := hs.lt
  obtain ⟨hlt₁, hlt₂⟩ := hs'.lt
  rcases h with h | ⟨h, h'⟩ | ⟨h, h'⟩
  · refine .inl fun n hn hn' => ?_
    cases b <;> cases b' <;> simp only [Span.has_range, Span.has_handler] at hn hn' <;> omega
  · cases b' with
    | false =>
      refine .inr fun n hn => ?_
      cases b <;> simp only [Span.has_range, Span.has_handler] at hn ⊢ <;> omega
    | true =>
      refine .inl fun n hn hn' => ?_
      cases b <;> simp only [Span.has_range, Span.has_handler] at hn hn' <;> omega
  · cases b' with
    | true =>
      refine .inr fun n hn => ?_
      cases b <;> simp only [Span.has_range, Span.has_handler] at hn ⊢ <;> omega
    | false =>
      refine .inl fun n hn hn' => ?_
      cases b <;> simp only [Span.has_range, Span.has_handler] at hn hn' <;> omega

/-- Nothing that is listed later lies inside a region that is listed first. -/
theorem Span.Precedes.not_inside (h : s.Precedes s')
    (hs : s.Sound code) (hs' : s'.Sound code) (b b' : Bool) : ∃ n, s'.Has b' n ∧ ¬ s.Has b n := by
  obtain ⟨hlt, hlt'⟩ := hs.lt
  obtain ⟨hlt₁, hlt₂⟩ := hs'.lt
  refine ⟨if b' then s'.mid else s'.start, ?_⟩
  cases b <;> cases b' <;> rcases h with h | ⟨h, h'⟩ | ⟨h, h'⟩ <;> simp <;> omega

namespace Laid

variable {b : Body} {spans : List Span} {s : Span} {n : Nat}
variable {r : ExceptionRegion} {m : Nat} {s' : Span}

section

variable (h : Laid b.code spans b.resumePoints)

include h

/-- In terms of labels, a span has the positions that its region covers. -/
theorem covers_iff (hs : s ∈ spans) (inHandler : Bool) (n : Nat) :
    b.Covers s.region inHandler n ↔ s.Has inHandler n := by
  have hsound := h.sound s hs
  constructor
  · rintro ⟨first, last, hfirst, hlast, hle, hlt⟩
    cases inHandler with
    | false =>
      rw [h.unique hfirst hsound.start] at hle
      rw [h.unique hlast hsound.rangeEnd] at hlt
      exact Span.has_range.2 ⟨hle, hlt⟩
    | true =>
      rw [h.unique hfirst hsound.mid] at hle
      rw [h.unique hlast hsound.stop] at hlt
      exact Span.has_handler.2 ⟨hle, hlt⟩
  · intro hhas
    cases inHandler with
    | false =>
      obtain ⟨hle, hlt⟩ := Span.has_range.1 hhas
      exact ⟨s.start, s.mid, hsound.start, hsound.rangeEnd, hle, hlt⟩
    | true =>
      obtain ⟨hle, hlt⟩ := Span.has_handler.1 hhas
      exact ⟨s.mid, s.stop, hsound.mid, hsound.stop, hle, hlt⟩

/-- The range or handler with the given first position, by the instruction that ends it. -/
theorem ends_of_leavesBetween (hs : s ∈ spans) (inHandler : Bool) {first last : Nat}
    (hhas : ∀ n, s.Has inHandler n ↔ first ≤ n ∧ n < last) (hbetween : LeavesBetween b.code first last) :
    ∃ n, b.Ends s.region inHandler n ∧
      (b.code[n]? = some .endFinally ∨ ∃ l, b.code[n]? = some (.leave l)) := by
  obtain ⟨n, hn, hn', hleave, hlabels⟩ := hbetween
  refine ⟨n, ⟨?_, ?_, fun m hm hcovers hacts => ?_⟩, hleave⟩
  · rw [h.covers_iff hs, hhas]
    omega
  · rcases hleave with hend | ⟨l, hleave⟩
    · exact ⟨_, hend, fun _ => by simp⟩
    · exact ⟨_, hleave, fun _ => by simp⟩
  · rw [h.covers_iff hs, hhas] at hcovers
    obtain ⟨l, hl⟩ := hlabels m hm hcovers.2
    obtain ⟨i, hi, hne⟩ := hacts
    exact hne l (by simpa [hl] using hi.symm)

theorem ends (hs : s ∈ spans) (inHandler : Bool) :
    ∃ n, b.Ends s.region inHandler n ∧
      (b.code[n]? = some .endFinally ∨ ∃ l, b.code[n]? = some (.leave l)) := by
  cases inHandler with
  | false => exact h.ends_of_leavesBetween hs false (fun _ => Span.has_range) (h.sound s hs).rangeLeaves
  | true => exact h.ends_of_leavesBetween hs true (fun _ => Span.has_handler) (h.sound s hs).handlerLeaves

omit h in
/-- A range or handler ends in one place. -/
theorem ends_unique {inHandler : Bool} (hn : b.Ends r inHandler n)
    (hm : b.Ends r inHandler m) : n = m := by
  rcases Nat.lt_trichotomy n m with hlt | heq | hlt
  · exact (hn.behind m hlt hm.covers hm.acts).elim
  · exact heq
  · exact (hm.behind n hlt hn.covers hn.acts).elim

omit h in
theorem begins_unique (hn : b.Begins r n) (hm : b.Begins r m) :
    n = m := by
  rcases Nat.lt_trichotomy n m with hlt | heq | hlt
  · exact (hm.before n hlt hn.covers hn.acts).elim
  · exact heq
  · exact (hn.before m hlt hm.covers hm.acts).elim

/-- A finally handler ends by handing control back. -/
theorem ends_finally (hs : s ∈ spans)
    (hnone : s.exception = none) (hn : n + 1 = s.stop) (hend : b.code[n]? = some .endFinally) :
    b.Ends s.region true n := by
  obtain ⟨m, hm, hm', hend'⟩ := (h.sound s hs).closes hnone
  refine ⟨?_, ⟨_, hend, fun _ => by simp⟩, fun m hm hcovers => ?_⟩
  · rw [h.covers_iff hs, Span.has_handler]
    omega
  · rw [h.covers_iff hs, Span.has_handler] at hcovers
    omega

/-- A catch handler begins by loading the exception. -/
theorem begins_catch (hs : s ∈ spans) {t : Temp}
    (hsome : s.exception = some t) : b.Begins s.region (s.mid + 1) := by
  obtain ⟨hlt, hload⟩ := (h.sound s hs).opens t hsome
  refine ⟨?_, ⟨_, hload, fun _ => by simp⟩, fun m hm hcovers hacts => ?_⟩
  · rw [h.covers_iff hs, Span.has_handler]
    omega
  · rw [h.covers_iff hs, Span.has_handler] at hcovers
    obtain rfl : m = s.mid := by omega
    obtain ⟨i, hi, hne⟩ := hacts
    have hmid := (h.sound s hs).mid
    exact hne _ (by simpa [hmid] using hi.symm)

theorem precedes {i j : Nat}
    (hi : spans[i]? = some s) (hj : spans[j]? = some s') (hlt : i < j) : s.Precedes s' := by
  obtain ⟨hi', rfl⟩ := List.getElem?_eq_some_iff.1 hi
  obtain ⟨hj', rfl⟩ := List.getElem?_eq_some_iff.1 hj
  exact List.pairwise_iff_getElem.1 h.order i j hi' hj' hlt

/-- Ranges and handlers are apart, or one lies inside the other. -/
theorem nested (hs : s ∈ spans) (hs' : s' ∈ spans)
    (h₁ h₂ : Bool) : (∀ n, s.Has h₁ n → ¬ s'.Has h₂ n) ∨ (∀ n, s.Has h₁ n → s'.Has h₂ n) ∨
      ∀ n, s'.Has h₂ n → s.Has h₁ n := by
  obtain ⟨i, hi⟩ := List.mem_iff_getElem?.1 hs
  obtain ⟨j, hj⟩ := List.mem_iff_getElem?.1 hs'
  rcases Nat.lt_trichotomy i j with hlt | rfl | hlt
  · rcases (h.precedes hi hj hlt).apart_or_inside (h.sound s hs) (h.sound s' hs') h₁ h₂ with h' | h'
    · exact .inl h'
    · exact .inr (.inl h')
  · obtain rfl : s = s' := Option.some.inj (hi.symm.trans hj)
    by_cases heq : h₁ = h₂
    · exact .inr (.inl fun n hn => heq ▸ hn)
    · refine .inl fun n hn hn' => ?_
      cases h₁ <;> cases h₂ <;> simp at heq hn hn' <;> omega
  · rcases (h.precedes hj hi hlt).apart_or_inside (h.sound s' hs') (h.sound s hs) h₂ h₁ with h' | h'
    · exact .inl fun n hn hn' => h' n hn' hn
    · exact .inr (.inr h')

theorem kind_finally (hs : s ∈ spans) :
    s.region.kind = .finallyHandler ↔ s.exception = none := by
  have hkind := (h.sound s hs).kind
  cases hregion : s.region.kind <;> cases hexception : s.exception <;>
    simp_all

/-- A body whose regions are laid out is well nested. -/
theorem wellNested (hregions : spans.map Span.region = b.regions) :
    b.WellNested := by
  have hmem : ∀ {r}, r ∈ b.regions → ∃ s ∈ spans, s.region = r := fun hr => by
    rw [← hregions] at hr
    exact List.mem_map.1 hr
  have hregion : ∀ {s}, s ∈ spans → s.region ∈ b.regions := fun hs => hregions ▸ List.mem_map_of_mem hs
  have haround : ∀ {s : Span}, s ∈ spans → ∀ h' n, b.Covers s.region h' n ↔ (s, h') ∈ around spans n :=
    fun hs h' n => by simp [h.covers_iff hs, around, hs]
  constructor
  · exact h.unique
  · intro r hr
    obtain ⟨s, hs, rfl⟩ := hmem hr
    have hsound := h.sound s hs
    exact ⟨s.start, s.mid, s.stop, hsound.start, hsound.rangeEnd, hsound.mid, hsound.stop,
      hsound.lt⟩
  · intro r hr r' hr' h₁ h₂
    obtain ⟨s, hs, rfl⟩ := hmem hr
    obtain ⟨s', hs', rfl⟩ := hmem hr'
    simpa only [h.covers_iff hs, h.covers_iff hs'] using h.nested hs hs' h₁ h₂
  · intro i j r r' h₁ h₂ hi hj hne hinside
    rw [← hregions, List.getElem?_map, Option.map_eq_some_iff] at hi hj
    obtain ⟨s, hi, rfl⟩ := hi
    obtain ⟨s', hj, rfl⟩ := hj
    have hs := List.mem_of_getElem? hi
    have hs' := List.mem_of_getElem? hj
    by_contra hle
    obtain ⟨n, hn, hout⟩ := (h.precedes hj hi (by omega)).not_inside (h.sound s' hs') (h.sound s hs) h₂ h₁
    rw [← h.covers_iff hs] at hn
    rw [← h.covers_iff hs'] at hout
    exact hout (hinside n hn)
  · intro n i l hi hl
    obtain ⟨m, hm, hsame⟩ := h.branch hi hl
    refine ⟨m, hm, fun r hr h' => ?_⟩
    obtain ⟨s, hs, rfl⟩ := hmem hr
    rw [haround hs, haround hs, hsame]
  · intro n l hi
    obtain ⟨m, hm, hsub, hfinally⟩ := h.leave hi
    refine ⟨m, hm, fun r hr h' => ?_⟩
    obtain ⟨s, hs, rfl⟩ := hmem hr
    rw [haround hs, haround hs, h.kind_finally hs]
    exact ⟨fun hm => hsub hm, fun hn hout => hfinally _ hn hout⟩
  · intro n i hi hgate r hr h' hcovers
    obtain ⟨s, hs, rfl⟩ := hmem hr
    rw [haround hs, h.gate hi hgate] at hcovers
    exact hcovers
  · intro p hp
    obtain ⟨m, hm, hempty⟩ := h.point p hp
    refine ⟨m, hm, fun r hr h' hcovers => ?_⟩
    obtain ⟨s, hs, rfl⟩ := hmem hr
    rw [haround hs, hempty] at hcovers
    exact hcovers
  · intro n
    constructor
    · intro hi
      obtain ⟨s, hs, hnone, hn⟩ := h.endFinally hi
      exact ⟨s.region, hregion hs, (h.kind_finally hs).2 hnone, h.ends_finally hs hnone hn hi⟩
    · rintro ⟨r, hr, hkind, hends⟩
      obtain ⟨s, hs, rfl⟩ := hmem hr
      have hnone := (h.kind_finally hs).1 hkind
      obtain ⟨m, -, hm, hend⟩ := (h.sound s hs).closes hnone
      exact ends_unique (h.ends_finally hs hnone hm hend) hends ▸ hend
  · intro n
    constructor
    · rintro ⟨t, hi⟩
      obtain ⟨s, hs, hsome, rfl⟩ := h.loadException hi
      exact ⟨s.region, hregion hs, (h.sound s hs).kind.2 (by simp [hsome]), h.begins_catch hs hsome⟩
    · rintro ⟨r, hr, hkind, hbegins⟩
      obtain ⟨s, hs, rfl⟩ := hmem hr
      obtain ⟨t, hsome⟩ := Option.isSome_iff_exists.1 ((h.sound s hs).kind.1 hkind)
      exact ⟨t, begins_unique (h.begins_catch hs hsome) hbegins ▸ ((h.sound s hs).opens t hsome).2⟩
  · intro r hr hkind
    obtain ⟨s, hs, rfl⟩ := hmem hr
    obtain ⟨t, hsome⟩ := Option.isSome_iff_exists.1 ((h.sound s hs).kind.1 hkind)
    exact ⟨_, h.begins_catch hs hsome⟩
  · intro r hr h'
    obtain ⟨s, hs, rfl⟩ := hmem hr
    exact h.ends hs h'

end

end Laid

/-! ### Compiled bodies -/

/-- What is lowered successfully comes from a finished session, whatever a suspension keeps. -/
theorem Function.exists_finished (h : (f.lower tree registry options).result = .ok body) :
    ∃ ctx s o, Finished Set.univ ctx s o ∧ body = ctx.body s := by
  obtain ⟨ctx, s, u, hctx, rfl, hrun, rfl⟩ := exists_session h
  obtain ⟨o, hfin⟩ := Lower.wholeFunction_finished (U := Set.univ) hctx
    (Function.accepted rfl fun _ => .inr fun t => Set.mem_univ _) hrun
  exact ⟨ctx, s, o, hfin, rfl⟩

/-- A compiled body is a lowered body with the passes run over it. -/
theorem Function.exists_lowered (h : (f.compile tree registry options).result = .ok body) :
    ∃ lowered, (f.lower tree registry options).result = .ok lowered ∧ lowered.TrimsTo body := by
  unfold Function.compile at h
  dsimp only at h
  split at h
  · rename_i reason hlowered
    rw [hlowered] at h
    cases h
  · rename_i lowered hlowered
    obtain rfl := Except.ok.inj h
    exact ⟨lowered, hlowered, lowered.optimize_trims registry options⟩

/-- The code of a finished session follows its outline. -/
theorem Finished.follows {U : Set Cell} {ctx : Context} {s : Session} {o : Outline}
    (h : Finished U ctx s o) : Follows o.code (ctx.body s).code id := by
  refine follows_of_plain ?_
  rw [Session.map_plain_toBody, ← h.code, List.map_map]
  exact List.map_congr_left fun j _ => (Instr.plain_unfused j).symm

/-- The regions of a compiled body are laid out. -/
theorem Function.exists_laid (h : (f.compile tree registry options).result = .ok body) :
    ∃ spans, Laid body.code spans body.resumePoints ∧ spans.map Span.region = body.regions := by
  obtain ⟨lowered, hlowered, htrims⟩ := exists_lowered h
  obtain ⟨ctx, s, o, hfin, rfl⟩ := exists_finished hlowered
  obtain ⟨g, hg⟩ := htrims.code.exists_positions
  have hlaid := (hfin.laid.follow hfin.follows).follow hg.follows
  have hpoints : body.resumePoints = o.points := htrims.resumePoints.trans hfin.points
  have hregions : body.regions = o.regions := htrims.regions.trans hfin.regions
  rw [← hpoints] at hlaid
  refine ⟨_, hlaid, ?_⟩
  rw [List.map_map, List.map_map, hregions, ← o.map_region_spans 0]
  rfl

/-- The protected regions of a compiled body are well nested, and only entered and left as they may
be. -/
theorem Function.compile_wellNested {f : Function} {tree : ScopeTree} {registry : Registry}
    {options : Options} {body : Body} (h : (f.compile tree registry options).result = .ok body) :
    body.WellNested := by
  obtain ⟨spans, hlaid, hregions⟩ := exists_laid h
  exact hlaid.wellNested hregions

/-- `try { try { return 1; } catch { throw 2; } } finally { 3; }` -/
def guardedReturn : Function where
  name := "guardedReturn"
  kind := .function
  scope := ScopeTree.global
  body := [.tryCatch
    [.tryCatch [.ret (some (.number (.ofNat 1)))]
      (some (.clause none none [.raise (.number (.ofNat 2))])) none]
    none (some [.expr (.number (.ofNat 3))])]

/-- What becomes of a function in a module without declarations, with all passes. -/
def Function.compiledAlone (f : Function) : Body :=
  match (f.compile (.ofModule "m") {} {}).result with
  | .ok body => body
  | .error _ => default

theorem compile_wellNested_guardedReturn :
    guardedReturn.compiledAlone.regions.length = 2 ∧ guardedReturn.compiledAlone.WellNested := by
  have h : (guardedReturn.compile (.ofModule "m") {} {}).result = .ok guardedReturn.compiledAlone := by
    decide +kernel
  exact ⟨by decide +kernel, Function.compile_wellNested h⟩

end ScriptLowering
