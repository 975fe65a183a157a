import ScriptLowering.Proofs.Path

/-!
# Where protected regions stand

An outline is a tree, its code is flat. A `Span` says where a protected region of the outline stands
in the code: the positions of the three labels that delimit its range and its handler. Spans are
listed in the order of the regions. Two of them are apart, or the one that is listed first lies
inside the range or inside the handler of the other.

Which jumps are possible at a position depends on the ranges and handlers around it and on nothing
else. `Jumps.Fits` ties the two together, and `Outline.Legal.stands` carries it to every
instruction.
-/

namespace ScriptLowering

/-- A protected region in flat code. -/
structure Span where
  /-- The region. -/
  region : ExceptionRegion
  /-- The temp into which a catch handler loads the exception. -/
  exception : Option Temp
  /-- Where the protected range starts. -/
  start : Nat
  /-- Where the range ends and the handler starts. -/
  mid : Nat
  /-- Where the handler ends. -/
  stop : Nat

namespace Span

variable {n : Nat} {s : Span}

/-- The position lies in the handler, or in the protected range. -/
def Has (s : Span) (inHandler : Bool) (n : Nat) : Prop :=
  if inHandler then s.mid ≤ n ∧ n < s.stop else s.start ≤ n ∧ n < s.mid

/-- The handler is a finally handler. -/
def IsFinally (s : Span) (inHandler : Bool) : Prop :=
  inHandler = true ∧ s.exception = none

/-- The first span stands in front of the second one, or inside its range or its handler. -/
def Precedes (a b : Span) : Prop :=
  a.stop < b.start ∨ (b.start < a.start ∧ a.stop < b.mid) ∨ (b.mid < a.start ∧ a.stop < b.stop)

@[simp] theorem has_handler : s.Has true n ↔ s.mid ≤ n ∧ n < s.stop := by
  simp [Has]

@[simp] theorem has_range : s.Has false n ↔ s.start ≤ n ∧ n < s.mid := by
  simp [Has]

end Span

/-- How many instructions stand in front of the code of a handler. -/
def openingLength (exception : Option Temp) : Nat :=
  (handlerOpening exception).length

namespace Outline

variable {o : Outline} {k : Nat} {s : Span} {code : List Instr}
variable {body rest : Outline}

/-- Where the handler of a region starts, if the region starts at `k`. -/
def handlerAt (k : Nat) (body : Outline) : Nat :=
  k + 1 + body.code.length

/-- Where the handler of a region ends, if the region starts at `k`. -/
def handlerEndAt (k : Nat) (t : Option Temp) (body handler : Outline) : Nat :=
  handlerAt k body + 1 + openingLength t + handler.code.length + (handlerClosing t).length

/-- The spans of an outline whose code starts at `k`. -/
def spans : Outline → Nat → List Span
  | nil, _ => []
  | item x rest, k => rest.spans (k + x.code.length)
  | region r t body handler rest, k =>
    body.spans (k + 1) ++ handler.spans (handlerAt k body + 1 + openingLength t)
      ++ ⟨r, t, k, handlerAt k body, handlerEndAt k t body handler⟩
        :: rest.spans (handlerEndAt k t body handler + 1)

theorem map_region_spans (o : Outline) (k : Nat) : (o.spans k).map Span.region = o.regions := by
  induction o generalizing k <;> simp_all [spans, regions]

theorem length_region {r : ExceptionRegion} {t : Option Temp} {handler : Outline} :
    k + (region r t body handler rest).code.length
      = handlerEndAt k t body handler + 1 + rest.code.length := by
  simp only [code, handlerEndAt, handlerAt, openingLength, List.length_append, List.length_cons]
  omega

/-- The positions of the parts of a region. -/
theorem region_positions (k : Nat) (r : ExceptionRegion) (t : Option Temp)
    (body handler rest : Outline) :
    handlerAt k body = k + 1 + body.code.length ∧
    handlerEndAt k t body handler = handlerAt k body + 1 + openingLength t + handler.code.length
      + (handlerClosing t).length ∧
    k + (region r t body handler rest).code.length
      = handlerEndAt k t body handler + 1 + rest.code.length :=
  ⟨rfl, rfl, length_region⟩

/-- A span lies inside the code, and its labels stand in order. -/
theorem spans_bounds (hs : s ∈ o.spans k) :
    k ≤ s.start ∧ s.start < s.mid ∧ s.mid < s.stop ∧ s.stop < k + o.code.length := by
  induction o generalizing k with
  | nil => cases hs
  | item x rest ih =>
    have := ih hs
    simp only [code, List.length_append]
    omega
  | region r t body handler rest ihb ihh ih =>
    obtain ⟨hmid, hstop, hlength⟩ := region_positions k r t body handler rest
    simp only [spans, List.mem_append, List.mem_cons] at hs
    rcases hs with (hs | hs) | rfl | hs
    · have := ihb hs
      omega
    · have := ihh hs
      omega
    · dsimp only
      omega
    · have := ih hs
      omega

/-- Two spans are apart, or the one that is listed first lies inside the other. -/
theorem spans_pairwise (o : Outline) (k : Nat) : (o.spans k).Pairwise Span.Precedes := by
  induction o generalizing k with
  | nil => exact .nil
  | item x rest ih => exact ih _
  | region r t body handler rest ihb ihh ih =>
    obtain ⟨hmid, hstop, -⟩ := region_positions k r t body handler rest
    rw [spans, List.pairwise_append, List.pairwise_append, List.pairwise_cons]
    refine ⟨⟨ihb _, ihh _, fun a ha b hb => .inl ?_⟩, ⟨fun b hb => .inl ?_, ih _⟩, fun a ha b hb => ?_⟩
    · have := spans_bounds ha
      have := spans_bounds hb
      omega
    · have := spans_bounds hb
      exact this.1
    · rcases List.mem_append.1 ha with ha | ha
      · have := spans_bounds ha
        rcases List.mem_cons.1 hb with rfl | hb
        · exact .inr (.inl (by dsimp only; omega))
        · have := spans_bounds hb
          exact .inl (by omega)
      · have := spans_bounds ha
        rcases List.mem_cons.1 hb with rfl | hb
        · exact .inr (.inr (by dsimp only; omega))
        · have := spans_bounds hb
          exact .inl (by omega)

/-! ### Parts of the code -/

/-- The code of the outline stands in the given code, from position `k` on. -/
def StandsAt (o : Outline) (code : List Instr) (k : Nat) : Prop :=
  ∃ pre post, code = pre ++ o.code ++ post ∧ pre.length = k

theorem standsAt_self (o : Outline) : o.StandsAt o.code 0 :=
  ⟨[], [], by simp, rfl⟩

theorem StandsAt.item {x : Item} (h : (item x rest).StandsAt code k) :
    rest.StandsAt code (k + x.code.length) := by
  obtain ⟨pre, post, rfl, rfl⟩ := h
  exact ⟨pre ++ x.code, post, by simp [Outline.code], by simp⟩

section Region

variable {r : ExceptionRegion} {t : Option Temp} {body handler rest : Outline}

theorem StandsAt.inBody (h : (region r t body handler rest).StandsAt code k) :
    body.StandsAt code (k + 1) := by
  obtain ⟨pre, post, rfl, rfl⟩ := h
  exact ⟨pre ++ [.label r.tryStart], _, by simp [Outline.code]; rfl, by simp⟩

theorem StandsAt.inHandler (h : (region r t body handler rest).StandsAt code k) :
    handler.StandsAt code (handlerAt k body + 1 + openingLength t) := by
  obtain ⟨pre, post, rfl, rfl⟩ := h
  refine ⟨pre ++ .label r.tryStart :: body.code ++ .label r.handlerStart :: handlerOpening t, _,
    by simp [Outline.code]; rfl, ?_⟩
  simp only [handlerAt, openingLength, List.length_append, List.length_cons]
  omega

theorem StandsAt.behind (h : (region r t body handler rest).StandsAt code k) :
    rest.StandsAt code (handlerEndAt k t body handler + 1) := by
  obtain ⟨pre, post, rfl, rfl⟩ := h
  refine ⟨pre ++ .label r.tryStart :: body.code ++ .label r.handlerStart ::
    (handlerOpening t ++ handler.code ++ handlerClosing t) ++ [.label r.handlerEnd], post,
    by simp [Outline.code], ?_⟩
  simp only [handlerEndAt, handlerAt, openingLength, List.length_append, List.length_cons,
    List.length_nil]
  omega

end Region

/-- What the code of an outline is at a position. -/
theorem StandsAt.get (h : o.StandsAt code k) {n : Nat} (hn : n < o.code.length) :
    code[k + n]? = o.code[n]? := by
  obtain ⟨pre, post, rfl, rfl⟩ := h
  rw [List.append_assoc, List.getElem?_append_right (by omega)]
  simp [List.getElem?_append_left hn]

end Outline

/-! ### The ends of a region -/

/-- Between the two positions, the last instruction other than a label is a `leave`, or ends a
finally handler. -/
def LeavesBetween (code : List Instr) (first last : Nat) : Prop :=
  ∃ n, first < n ∧ n < last ∧ (code[n]? = some .endFinally ∨ ∃ l, code[n]? = some (.leave l)) ∧
    ∀ m, n < m → m < last → ∃ l, code[m]? = some (.label l)

/-- What stands at the positions of a span. -/
structure Span.Sound (s : Span) (code : List Instr) : Prop where
  start : code[s.start]? = some (.label s.region.tryStart)
  mid : code[s.mid]? = some (.label s.region.handlerStart)
  stop : code[s.stop]? = some (.label s.region.handlerEnd)
  tryEnd : s.region.tryEnd = s.region.handlerStart
  kind : s.region.kind = .catchHandler ↔ s.exception.isSome
  opens : ∀ t, s.exception = some t →
    s.mid + 1 < s.stop ∧ code[s.mid + 1]? = some (.define t .loadException)
  closes : s.exception = none → ∃ n, s.mid < n ∧ n + 1 = s.stop ∧ code[n]? = some .endFinally
  rangeLeaves : LeavesBetween code s.start s.mid
  handlerLeaves : LeavesBetween code s.mid s.stop

theorem EndsByLeaving.leavesBetween {piece : List Instr} (h : EndsByLeaving piece)
    (pre post : List Instr) {first : Nat} (hfirst : first < pre.length) :
    LeavesBetween (pre ++ piece ++ post) first (pre.length + piece.length) := by
  obtain ⟨before, i, after, rfl, hi, hafter⟩ := h
  have hget : ∀ m, (pre ++ (before ++ i :: after) ++ post)[pre.length + before.length + m]?
      = (i :: after ++ post)[m]? := by
    intro m
    rw [List.append_assoc, List.append_assoc, ← List.append_assoc pre,
      List.getElem?_append_right (by simp only [List.length_append]; omega)]
    congr 1
    simp only [List.length_append]
    omega
  refine ⟨pre.length + before.length, by omega, by simp, ?_, fun m hm hm' => ?_⟩
  · have := hget 0
    simp only [Nat.add_zero, List.cons_append, List.getElem?_cons_zero] at this
    rw [this]
    rcases hi with rfl | ⟨l, rfl⟩
    · exact .inl rfl
    · exact .inr ⟨l, rfl⟩
  · obtain ⟨d, rfl⟩ : ∃ d, m = pre.length + before.length + (d + 1) := ⟨m - (pre.length + before.length + 1), by omega⟩
    have hd : d < after.length := by
      simp only [List.length_append, List.length_cons] at hm'
      omega
    rw [hget (d + 1), List.cons_append, List.getElem?_cons_succ, List.getElem?_append_left hd]
    obtain ⟨l, hl⟩ := hafter after[d] (List.getElem_mem hd)
    exact ⟨l, by rw [List.getElem?_eq_getElem hd, hl]⟩

namespace Outline

variable {f : Function} {z : Session} {o : Outline} {J : Jumps} {k : Nat}
  {s : Span} {code : List Instr}

/-- The region that an outline starts with. -/
theorem sound_region {r : ExceptionRegion} {t : Option Temp} {body handler rest : Outline}
    (ho : (region r t body handler rest).Legal f z J)
    (hstands : (region r t body handler rest).StandsAt code k) :
    Span.Sound ⟨r, t, k, handlerAt k body, handlerEndAt k t body handler⟩ code := by
  obtain ⟨htryEnd, hkind, hbody, hhandler, -, -, -⟩ := ho
  obtain ⟨pre, post, rfl, rfl⟩ := hstands
  have hmid : handlerAt pre.length body
      = (pre ++ .label r.tryStart :: body.code).length := by simp [handlerAt]; omega
  have hstop : handlerEndAt pre.length t body handler
      = (pre ++ .label r.tryStart :: body.code ++ .label r.handlerStart ::
        (handlerOpening t ++ handler.code ++ handlerClosing t)).length := by
    simp only [handlerEndAt, handlerAt, openingLength, List.length_append, List.length_cons]
    omega
  refine ⟨?_, ?_, ?_, htryEnd, hkind, ?_, ?_, ?_, ?_⟩
  · simp [Outline.code]
  · dsimp only
    rw [hmid]
    simp [Outline.code]
  · dsimp only
    rw [hstop]
    simp [Outline.code]
  · rintro exception rfl
    refine ⟨?_, ?_⟩
    · simp only [handlerEndAt, openingLength, handlerOpening, List.length_cons]
      omega
    · dsimp only
      have hopen : handlerAt pre.length body + 1
          = (pre ++ Instr.label r.tryStart :: body.code ++ [Instr.label r.handlerStart]).length := by
        rw [List.length_append, ← hmid]
        rfl
      rw [hopen]
      simp [Outline.code, handlerOpening]
  · rintro rfl
    refine ⟨(pre ++ .label r.tryStart :: body.code ++ .label r.handlerStart :: handler.code).length,
      ?_, ?_, ?_⟩
    · dsimp only
      rw [hmid]
      simp
    · dsimp only
      rw [hstop]
      simp only [handlerOpening, handlerClosing, List.length_append, List.length_cons,
        List.length_nil]
      omega
    · simp [Outline.code, handlerOpening, handlerClosing]
  · dsimp only
    have hbetween := hbody.leavesBetween (pre ++ [.label r.tryStart]) (.label r.handlerStart ::
      (handlerOpening t ++ handler.code ++ handlerClosing t) ++ .label r.handlerEnd :: rest.code
        ++ post) (show pre.length < _ by simp)
    rw [hmid]
    convert hbetween using 1
    · simp [Outline.code]
    · simp only [List.length_append, List.length_cons, List.length_nil]
      omega
  · dsimp only
    have hbetween := hhandler.leavesBetween (pre ++ .label r.tryStart :: body.code
      ++ .label r.handlerStart :: handlerOpening t) (.label r.handlerEnd :: rest.code ++ post)
      (show handlerAt pre.length body < _ by rw [hmid]; simp)
    rw [hstop]
    convert hbetween using 1
    · simp [Outline.code]
    · simp only [List.length_append, List.length_cons]
      omega

/-- Every span of a legal outline is sound. -/
theorem Legal.spans_sound (ho : o.Legal f z J) (hstands : o.StandsAt code k)
    (hs : s ∈ o.spans k) : s.Sound code := by
  induction o generalizing J k with
  | nil => cases hs
  | item x rest ih => exact ih ho.2 hstands.item hs
  | region r t body handler rest ihb ihh ih =>
    have hself := sound_region ho hstands
    obtain ⟨-, -, -, -, hbody, hhandler, hrest⟩ := ho
    simp only [spans, List.mem_append, List.mem_cons] at hs
    rcases hs with (hs | hs) | rfl | hs
    · exact ihb hbody hstands.inBody hs
    · exact ihh hhandler hstands.inHandler hs
    · exact hself
    · exact ih hrest hstands.behind hs

end Outline

/-! ### Jumps and positions -/

/-- The ranges and handlers around a position. -/
def around (spans : List Span) (n : Nat) : Set (Span × Bool) :=
  {p | p.1 ∈ spans ∧ p.1.Has p.2 n}

/-- Jumps that fit a position with the ranges and handlers `E` around it: what can be branched to
has the same around it, and what can be left for has no more, where nothing that is left is a
finally handler. -/
structure Jumps.Fits (J : Jumps) (code : List Instr) (spans : List Span) (E : Set (Span × Bool)) :
    Prop where
  branch : ∀ l ∈ J.branch, ∃ m, code[m]? = some (.label l) ∧ around spans m = E
  leave : ∀ l ∈ J.leave, ∃ m, code[m]? = some (.label l) ∧ around spans m ⊆ E ∧
    ∀ p ∈ E, p ∉ around spans m → ¬ p.1.IsFinally p.2
  exit : J.mayExit = true → ∀ p ∈ E, ¬ p.1.IsFinally p.2
  native : J.isNative = false → E = ∅

namespace Jumps.Fits

variable {J : Jumps} {code : List Instr} {spans : List Span} {E : Set (Span × Bool)} {s : Span}
  {b : Bool}

theorem withLabels {labels : List Label} (h : J.Fits code spans E)
    (hlabels : ∀ l ∈ labels, ∃ m, code[m]? = some (.label l) ∧ around spans m = E) :
    (J.withLabels labels).Fits code spans E where
  branch l hl := by
    rcases hl with hl | hl
    · exact h.branch l hl
    · exact hlabels l hl
  leave := h.leave
  exit := h.exit
  native := h.native

theorem guarded (h : J.Fits code spans E) (hs : ¬ s.IsFinally b) :
    J.guarded.Fits code spans (insert (s, b) E) where
  branch l hl := hl.elim
  leave l hl := by
    rcases hl with hl | hl
    · obtain ⟨m, hm, haround, hleft⟩ := h.leave l hl
      refine ⟨m, hm, haround.trans (Set.subset_insert ..), fun p hp hout => ?_⟩
      rcases hp with rfl | hp
      · exact hs
      · exact hleft p hp hout
    · obtain ⟨m, hm, haround⟩ := h.branch l hl
      refine ⟨m, hm, haround ▸ Set.subset_insert .., fun p hp hout => ?_⟩
      rcases hp with rfl | hp
      · exact hs
      · exact (hout (haround ▸ hp)).elim
  exit hexit p hp := by
    rcases hp with rfl | hp
    · exact hs
    · exact h.exit hexit p hp
  native hnative := by cases hnative

theorem finalizing : Jumps.finalizing.Fits code spans E where
  branch l hl := hl.elim
  leave l hl := hl.elim
  exit hexit := by cases hexit
  native hnative := by cases hnative

theorem handler (h : J.Fits code spans E) :
    (J.handler s.exception).Fits code spans (insert (s, true) E) := by
  unfold Jumps.handler
  split
  · rename_i hsome
    exact h.guarded fun hfinally => by simp [hfinally.2] at hsome
  · exact finalizing

end Jumps.Fits

namespace Outline

variable {f : Function} {z : Session} {o : Outline} {J : Jumps} {k n : Nat}
  {s : Span} {code : List Instr} {all : List Span} {E : Set (Span × Bool)}
variable {i : Instr} {x : Item} {body rest : Outline}

/-- The spans of the outline are among all spans of the code, and around the outline as a whole are
the ranges and handlers `E` and no others. -/
structure Level (o : Outline) (k : Nat) (all : List Span) (E : Set (Span × Bool)) : Prop where
  mem : ∀ s ∈ o.spans k, s ∈ all
  outer : ∀ n, k ≤ n → n < k + o.code.length → ∀ s ∈ all, s ∉ o.spans k →
    ∀ b, s.Has b n ↔ (s, b) ∈ E
  apart : ∀ s ∈ o.spans k, ∀ b, (s, b) ∉ E
  known : ∀ p ∈ E, p.1 ∈ all

theorem level_self (o : Outline) : o.Level 0 (o.spans 0) ∅ where
  mem _ hs := hs
  outer _ _ _ _ hs hout := (hout hs).elim
  apart _ _ _ := id
  known _ hp := hp.elim

/-- On the top level of an outline there is nothing around but what is around the outline. -/
theorem Level.around_eq (h : o.Level k all E) (hn : k ≤ n) (hn' : n < k + o.code.length)
    (hout : ∀ s ∈ o.spans k, ∀ b, ¬ s.Has b n) : around all n = E := by
  ext ⟨s, b⟩
  constructor
  · rintro ⟨hs, hhas⟩
    by_cases hmem : s ∈ o.spans k
    · exact (hout s hmem b hhas).elim
    · exact (h.outer n hn hn' s hs hmem b).1 hhas
  · intro hE
    have hs := h.known _ hE
    by_cases hmem : s ∈ o.spans k
    · exact (h.apart s hmem b hE).elim
    · exact ⟨hs, (h.outer n hn hn' s hs hmem b).2 hE⟩

theorem Level.item (h : (item x rest).Level k all E) :
    rest.Level (k + x.code.length) all E where
  mem := h.mem
  outer n hn hn' := h.outer n (by omega) (by simp only [Outline.code, List.length_append]; omega)
  apart := h.apart
  known := h.known

/-- A part of an outline, given what the other parts of the outline add around it. -/
theorem Level.part {o' : Outline} {k' : Nat} {E' : Set (Span × Bool)} (h : o.Level k all E)
    (hk : k ≤ k') (hlength : k' + o'.code.length ≤ k + o.code.length)
    (hsub : ∀ s ∈ o'.spans k', s ∈ o.spans k) (hE : E ⊆ E')
    (hE' : ∀ p ∈ E', p ∈ E ∨ p.1 ∈ o.spans k ∧ p.1 ∉ o'.spans k')
    (hothers : ∀ n, k' ≤ n → n < k' + o'.code.length → ∀ s ∈ o.spans k, s ∉ o'.spans k' →
      ∀ b, s.Has b n ↔ (s, b) ∈ E') : o'.Level k' all E' where
  mem s hs := h.mem s (hsub s hs)
  outer n hn hn' s hs hout b := by
    by_cases hmem : s ∈ o.spans k
    · exact hothers n hn hn' s hmem hout b
    · rw [h.outer n (by omega) (by omega) s hs hmem b]
      refine ⟨fun hp => hE hp, fun hp => ?_⟩
      exact (hE' _ hp).resolve_right fun hp' => hmem hp'.1
  apart s hs b hp := by
    rcases hE' _ hp with hp | ⟨-, hp⟩
    · exact h.apart s (hsub s hs) b hp
    · exact hp hs
  known p hp := by
    rcases hE' p hp with hp | ⟨hp, -⟩
    · exact h.known p hp
    · exact h.mem _ hp

section Region

variable {r : ExceptionRegion} {t : Option Temp} {body handler rest : Outline}

/-- The span of the region that an outline starts with. -/
def firstSpan (r : ExceptionRegion) (t : Option Temp) (body handler : Outline) (k : Nat) : Span :=
  ⟨r, t, k, handlerAt k body, handlerEndAt k t body handler⟩

theorem mem_spans_region : s ∈ (region r t body handler rest).spans k ↔
    s ∈ body.spans (k + 1) ∨ s ∈ handler.spans (handlerAt k body + 1 + openingLength t) ∨
      s = firstSpan r t body handler k ∨ s ∈ rest.spans (handlerEndAt k t body handler + 1) := by
  simp [spans, firstSpan]

@[simp] theorem start_firstSpan : (firstSpan r t body handler k).start = k := rfl

@[simp] theorem mid_firstSpan : (firstSpan r t body handler k).mid = handlerAt k body := rfl

@[simp] theorem stop_firstSpan :
    (firstSpan r t body handler k).stop = handlerEndAt k t body handler := rfl

theorem ne_firstSpan (h : s.start ≠ k) : s ≠ firstSpan r t body handler k :=
  fun hs => h (congrArg Span.start hs)

theorem Level.inBody (h : (region r t body handler rest).Level k all E) :
    body.Level (k + 1) all (insert (firstSpan r t body handler k, false) E) := by
  obtain ⟨hmid, hstop, hlength⟩ := region_positions k r t body handler rest
  have hfirst : firstSpan r t body handler k ∉ body.spans (k + 1) := by
    intro hmem
    have hbounds : k + 1 ≤ k ∧ _ := spans_bounds hmem
    omega
  refine h.part (by omega) (by omega) (fun s hs => mem_spans_region.2 (.inl hs))
    (Set.subset_insert ..) ?_ fun n hn hn' s hs hout b => ?_
  · rintro p (rfl | hp)
    · exact .inr ⟨mem_spans_region.2 (.inr (.inr (.inl rfl))), hfirst⟩
    · exact .inl hp
  · have hE : ∀ b, (s, b) ∉ E := h.apart s hs
    rcases (mem_spans_region.1 hs).resolve_left hout with hs | rfl | hs
    · have := spans_bounds hs
      have hne : s ≠ firstSpan r t body handler k := ne_firstSpan (by omega)
      cases b <;> simp [hE, hne] <;> omega
    · cases b <;> simp [hE] <;> omega
    · have := spans_bounds hs
      have hne : s ≠ firstSpan r t body handler k := ne_firstSpan (by omega)
      cases b <;> simp [hE, hne] <;> omega

theorem Level.inHandler (h : (region r t body handler rest).Level k all E) :
    handler.Level (handlerAt k body + 1 + openingLength t) all
      (insert (firstSpan r t body handler k, true) E) := by
  obtain ⟨hmid, hstop, hlength⟩ := region_positions k r t body handler rest
  have hfirst : firstSpan r t body handler k
      ∉ handler.spans (handlerAt k body + 1 + openingLength t) := by
    intro hmem
    have hbounds : handlerAt k body + 1 + openingLength t ≤ k ∧ _ := spans_bounds hmem
    omega
  refine h.part (by omega) (by omega) (fun s hs => mem_spans_region.2 (.inr (.inl hs)))
    (Set.subset_insert ..) ?_ fun n hn hn' s hs hout b => ?_
  · rintro p (rfl | hp)
    · exact .inr ⟨mem_spans_region.2 (.inr (.inr (.inl rfl))), hfirst⟩
    · exact .inl hp
  · have hE : ∀ b, (s, b) ∉ E := h.apart s hs
    rcases mem_spans_region.1 hs with hs | hs | rfl | hs
    · have := spans_bounds hs
      have hne : s ≠ firstSpan r t body handler k := ne_firstSpan (by omega)
      cases b <;> simp [hE, hne] <;> omega
    · exact (hout hs).elim
    · cases b <;> simp [hE] <;> omega
    · have := spans_bounds hs
      have hne : s ≠ firstSpan r t body handler k := ne_firstSpan (by omega)
      cases b <;> simp [hE, hne] <;> omega

theorem Level.behind (h : (region r t body handler rest).Level k all E) :
    rest.Level (handlerEndAt k t body handler + 1) all E := by
  obtain ⟨hmid, hstop, hlength⟩ := region_positions k r t body handler rest
  refine h.part (by omega) (by omega)
    (fun s hs => mem_spans_region.2 (.inr (.inr (.inr hs)))) subset_rfl (fun p hp => .inl hp)
    fun n hn hn' s hs hout b => ?_
  have hE : ∀ b, (s, b) ∉ E := h.apart s hs
  rcases mem_spans_region.1 hs with hs | hs | rfl | hs
  · have := spans_bounds hs
    cases b <;> simp [hE] <;> omega
  · have := spans_bounds hs
    cases b <;> simp [hE] <;> omega
  · cases b <;> simp [hE] <;> omega
  · exact (hout hs).elim

end Region

/-- A label on the top level stands inside no span of the outline. -/
theorem exists_top {l : Label} (hl : l ∈ o.tops) (hstands : o.StandsAt code k) :
    ∃ m, k ≤ m ∧ m < k + o.code.length ∧ code[m]? = some (.label l) ∧
      ∀ s ∈ o.spans k, ∀ b, ¬ s.Has b m := by
  induction o generalizing k with
  | nil => cases hl
  | item x rest ih =>
    simp only [Outline.code, List.length_append]
    rcases List.mem_append.1 hl with hl | hl
    · unfold Item.tops at hl
      split at hl
      · obtain rfl := List.mem_singleton.1 hl
        have hget := hstands.get (n := 0) (by simp [Outline.code, Item.code])
        refine ⟨k, le_rfl, by simp only [Item.code, List.length_singleton]; omega, by simpa [Outline.code, Item.code] using hget,
          fun s hs b => ?_⟩
        have := spans_bounds (show s ∈ rest.spans (k + 1) from hs)
        cases b <;> simp <;> omega
      · cases hl
    · obtain ⟨m, hm, hm', hget, hout⟩ := ih hl hstands.item
      exact ⟨m, by omega, by omega, hget, hout⟩
  | region r t body handler rest _ _ ih =>
    obtain ⟨hmid, hstop, hlength⟩ := region_positions k r t body handler rest
    obtain ⟨m, hm, hm', hget, hout⟩ := ih hl hstands.behind
    refine ⟨m, by omega, by omega, hget, fun s hs b => ?_⟩
    rcases mem_spans_region.1 hs with hs | hs | rfl | hs
    · have := spans_bounds hs
      cases b <;> simp <;> omega
    · have := spans_bounds hs
      cases b <;> simp <;> omega
    · cases b <;> simp <;> omega
    · exact hout s hs b

/-- Jumps that fit the surroundings of an outline also fit with the labels of its top level. -/
theorem Level.fits_tops (h : o.Level k all E) (hstands : o.StandsAt code k)
    (hJ : J.Fits code all E) : (J.withLabels o.tops).Fits code all E := by
  refine hJ.withLabels fun l hl => ?_
  obtain ⟨m, hm, hm', hget, hout⟩ := exists_top hl hstands
  exact ⟨m, hget, h.around_eq hm hm' hout⟩

/-- What an instruction of a legal outline is: legal for jumps that fit its position, or part of the
frame of a region. -/
inductive Standing (f : Function) (z : Session) (code : List Instr) (all : List Span)
    (spans : List Span) (n : Nat) (i : Instr) : Prop
  | legal (J : Jumps) (hi : i.Legal f z J) (hJ : J.Fits code all (around all n))
  | label (l : Label) (h : i = .label l)
  | closes (s : Span) (hs : s ∈ spans) (hnone : s.exception = none) (hn : n + 1 = s.stop)
    (h : i = .endFinally)
  | opens (s : Span) (hs : s ∈ spans) (t : Temp) (hsome : s.exception = some t)
    (hn : n = s.mid + 1) (h : i = .define t .loadException)

theorem Standing.mono {spans spans' : List Span}
    (h : Standing f z code all spans n i) (hsub : ∀ s ∈ spans, s ∈ spans') :
    Standing f z code all spans' n i := by
  cases h with
  | legal J hi hJ => exact .legal J hi hJ
  | label l h => exact .label l h
  | closes s hs hnone hn h => exact .closes s (hsub s hs) hnone hn h
  | opens s hs t hsome hn h => exact .opens s (hsub s hs) t hsome hn h

/-- Every instruction of a legal outline stands where it may. -/
theorem Legal.stands (ho : o.Legal f z J) (hJ : J.Fits code all E)
    (hlevel : o.Level k all E) (hstands : o.StandsAt code k) (hn : k ≤ n)
    (hn' : n < k + o.code.length) (hi : code[n]? = some i) :
    Standing f z code all (o.spans k) n i := by
  induction o generalizing J k E with
  | nil => simp [Outline.code] at hn'; omega
  | item x rest ih =>
    by_cases hrest : k + x.code.length ≤ n
    · simp only [Outline.code, List.length_append] at hn'
      exact ih ho.2 hJ hlevel.item hstands.item hrest (by omega)
    · obtain ⟨d, rfl⟩ := Nat.exists_eq_add_of_le hn
      have hd : d < x.code.length := by omega
      have hget : x.code[d]? = some i := by
        rw [← hi, hstands.get (by simp only [Outline.code, List.length_append]; omega)]
        simp [Outline.code, List.getElem?_append_left hd]
      cases x with
      | instr j =>
        obtain rfl : d = 0 := by simpa [Item.code] using hd
        obtain rfl : j = i := by simpa [Item.code] using hget
        refine .legal J ho.1 ?_
        rw [hlevel.around_eq hn hn' fun s hs b => ?_]
        · exact hJ
        · have := spans_bounds (show s ∈ rest.spans (k + 1) from hs)
          cases b <;> simp <;> omega
      | _ => cases hget
  | region r t body handler rest ihb ihh ih =>
    obtain ⟨hmid, hstop, hlength⟩ := region_positions k r t body handler rest
    have hsound := sound_region ho hstands
    obtain ⟨-, -, -, -, hbody, hhandler, hrest⟩ := ho
    have hsub : ∀ s, s ∈ body.spans (k + 1) ∨
        s ∈ handler.spans (handlerAt k body + 1 + openingLength t) ∨
        s ∈ rest.spans (handlerEndAt k t body handler + 1) →
        s ∈ (region r t body handler rest).spans k := fun s hs => mem_spans_region.2 (by tauto)
    have hfirst : firstSpan r t body handler k ∈ (region r t body handler rest).spans k :=
      mem_spans_region.2 (.inr (.inr (.inl rfl)))
    have hlabel : ∀ l, code[n]? = some (.label l) → i = .label l := fun l hl => by
      simpa [hi] using hl
    by_cases h₁ : n = k
    · exact .label r.tryStart (hlabel _ (h₁ ▸ hsound.start))
    by_cases h₂ : n < handlerAt k body
    · refine (ihb hbody ?_ hlevel.inBody hstands.inBody (by omega) (by omega)).mono fun s hs =>
        hsub s (.inl hs)
      exact hlevel.inBody.fits_tops hstands.inBody (hJ.guarded fun hfinally => by cases hfinally.1)
    by_cases h₃ : n = handlerAt k body
    · exact .label r.handlerStart (hlabel _ (h₃ ▸ hsound.mid))
    by_cases h₄ : n < handlerEndAt k t body handler
    · by_cases hopen : n < handlerAt k body + 1 + openingLength t
      · cases t with
        | none => simp [openingLength, handlerOpening] at hopen; omega
        | some t =>
          have hn₀ : n = handlerAt k body + 1 := by
            simp only [openingLength, handlerOpening, List.length_singleton] at hopen
            omega
          refine .opens _ hfirst t rfl hn₀ ?_
          simpa [← hn₀, hi] using (hsound.opens t rfl).2
      by_cases hclose : handlerAt k body + 1 + openingLength t + handler.code.length ≤ n
      · cases t with
        | some t => simp [handlerClosing] at hstop; omega
        | none =>
          obtain ⟨m, -, hm, hend⟩ := hsound.closes rfl
          have hlast : n + 1 = handlerEndAt k none body handler := by
            simp only [handlerClosing, List.length_singleton] at hstop
            omega
          obtain rfl : m = n := by
            dsimp only at hm
            omega
          exact .closes _ hfirst rfl hlast (by simpa [hi] using hend)
      · refine (ihh hhandler ?_ hlevel.inHandler hstands.inHandler (by omega) (by omega)).mono
          fun s hs => hsub s (.inr (.inl hs))
        exact hlevel.inHandler.fits_tops hstands.inHandler
          (hJ.handler (s := firstSpan r t body handler k))
    by_cases h₅ : n = handlerEndAt k t body handler
    · exact .label r.handlerEnd (hlabel _ (h₅ ▸ hsound.stop))
    · exact (ih hrest hJ hlevel.behind hstands.behind (by omega) (by omega)).mono fun s hs =>
        hsub s (.inr (.inr hs))

/-- A resume point of a legal outline stands outside of all ranges and handlers. -/
theorem Legal.point_stands (ho : o.Legal f z J) (hJ : J.Fits code all E)
    (hlevel : o.Level k all E) (hstands : o.StandsAt code k) {p : ResumePoint} (hp : p ∈ o.points) :
    ∃ m, code[m]? = some (.label p.label) ∧ around all m = ∅ := by
  induction o generalizing J k E with
  | nil => cases hp
  | item x rest ih =>
    rcases List.mem_append.1 hp with hp | hp
    · cases x with
      | point q =>
        obtain rfl := List.mem_singleton.1 hp
        obtain ⟨-, hnative, hbranch⟩ := ho.1
        obtain ⟨m, hm, haround⟩ := hJ.branch _ hbranch
        exact ⟨m, hm, haround.trans (hJ.native hnative)⟩
      | _ => cases hp
    · exact ih ho.2 hJ hlevel.item hstands.item hp
  | region r t body handler rest ihb ihh ih =>
    obtain ⟨-, -, -, -, hbody, hhandler, hrest⟩ := ho
    rcases List.mem_append.1 hp with hp | hp
    · rcases List.mem_append.1 hp with hp | hp
      · refine ihb hbody ?_ hlevel.inBody hstands.inBody hp
        exact hlevel.inBody.fits_tops hstands.inBody (hJ.guarded fun hfinally => by cases hfinally.1)
      · refine ihh hhandler ?_ hlevel.inHandler hstands.inHandler hp
        exact hlevel.inHandler.fits_tops hstands.inHandler
          (hJ.handler (s := firstSpan r t body handler k))
    · exact ih hrest hJ hlevel.behind hstands.behind hp

end Outline

end ScriptLowering
