import ScriptLowering.Proofs.Emission.Function

/-!
# Ways through the code

Control goes from one instruction to the next, to the label that a jump names, from the dispatch to
a resume point, and from any place of a protected range to the handler of the range. A `Body.Path`
is a way along such edges; it remembers the positions that it has passed.

The certificate of a finished session (`Finished.flow`) speaks about typings of labels. Here it is
turned into a statement about ways: whatever an instruction reads was written on every way that
leads to it, as far as the certificate does not exempt it.
-/

namespace ScriptLowering

variable {r : ExceptionRegion} {l : Label} {o : Outline}

namespace Body

/-- The label stands at the position. -/
def Placed (b : Body) (l : Label) (n : Nat) : Prop :=
  b.code[n]? = some (.label l)

/-- The position lies in the protected range of the region. -/
def InTry (b : Body) (r : ExceptionRegion) (n : Nat) : Prop :=
  ∃ first last, b.Placed r.tryStart first ∧ b.Placed r.tryEnd last ∧ first ≤ n ∧ n < last

/-- Control can go from the one position to the other. A suspension leaves the function, so it has
no edge; re-entry starts at its resume label. -/
inductive Edge (b : Body) : Nat → Nat → Prop
  | next {n : Nat} {i : Instr} (hi : b.code[n]? = some i) (hfalls : i.fallsThrough = true) :
    Edge b n (n + 1)
  | jump {n m : Nat} {i : Instr} {l : Label} (hi : b.code[n]? = some i)
    (htarget : i.target? = some l) (hm : b.Placed l m) : Edge b n m
  | dispatch {n m : Nat} {targets : List StateLabel} {start l : Label}
    (hi : b.code[n]? = some (.dispatch targets start))
    (hl : l = start ∨ ∃ target ∈ targets, target.label = l) (hm : b.Placed l m) : Edge b n m
  | throw {n m : Nat} {r : ExceptionRegion} (hr : r ∈ b.regions) (hn : b.InTry r n)
    (hm : b.Placed r.handlerStart m) : Edge b n m

/-- A way from `start` to a position, with the positions that were passed, the latest first. -/
inductive Path (b : Body) (start : Nat) : Nat → List Nat → Prop
  | here : Path b start start []
  | step {n m : Nat} {passed : List Nat} (hpath : Path b start n passed) (hedge : b.Edge n m) :
    Path b start m (n :: passed)

/-- A resume point leads to the position. -/
def ResumesAt (b : Body) (n : Nat) : Prop :=
  ∃ p ∈ b.resumePoints, b.Placed p.label n

/-- A step of the way, which has the latest position first, goes over the position. -/
def JumpsOver (way : List Nat) (k : Nat) : Prop :=
  ∃ n m, [m, n] <:+: way ∧ n < k ∧ k < m

/-- A step of the way goes back to a place in front of the position. -/
def JumpsBack (way : List Nat) (k : Nat) : Prop :=
  ∃ n m, [m, n] <:+: way ∧ m < k ∧ k ≤ n

variable {b : Body} {start n k : Nat} {passed : List Nat}

theorem Path.passes_or_jumpsOver (h : b.Path start n passed) (hstart : start ≤ k) (hn : k < n) :
    k ∈ passed ∨ JumpsOver (n :: passed) k := by
  induction h with
  | here => exact absurd hn (Nat.not_lt.2 hstart)
  | @step n m passed hpath hedge ih =>
    rcases Nat.lt_trichotomy k n with hk | rfl | hk
    · refine (ih hk).imp (.tail _) ?_
      rintro ⟨n', m', hstep, hover⟩
      exact ⟨n', m', hstep.trans (List.suffix_cons ..).isInfix, hover⟩
    · exact .inl (.head _)
    · exact .inr ⟨n, m, ⟨[], passed, rfl⟩, hk, hn⟩

theorem Path.jumpsBack (h : b.Path start n passed) (hstart : k ≤ start) (hn : n < k) :
    JumpsBack (n :: passed) k := by
  induction h with
  | here => exact absurd hn (Nat.not_lt.2 hstart)
  | @step n m passed hpath hedge ih =>
    rcases Nat.lt_or_ge n k with hk | hk
    · obtain ⟨n', m', hstep, hback⟩ := ih hk
      exact ⟨n', m', hstep.trans (List.suffix_cons ..).isInfix, hback⟩
    · exact ⟨n, m, ⟨[], passed, rfl⟩, hn, hk⟩

end Body

/-! ### The code of a body and the code of its session -/

/-- The instruction with an empty dispatch table, before an addition was fused. -/
def Instr.plain : Instr → Instr
  | .dispatch _ start => .dispatch [] start
  | i => i.unfused

namespace Instr

variable {i : Instr} {l : Label}

@[simp] theorem plain_unfused (i : Instr) : i.unfused.plain = i.plain := by
  unfold unfused
  split <;> rfl

@[simp] theorem reads_plain (i : Instr) : i.plain.reads = i.reads := by
  cases i <;> first | rfl | exact reads_unfused _

@[simp] theorem writes_plain (i : Instr) : i.plain.writes = i.writes := by
  cases i <;> first | rfl | exact writes_unfused _

@[simp] theorem successors_plain (i : Instr) : i.plain.successors = i.successors := by
  unfold plain unfused
  split
  · rfl
  · split <;> rfl

@[simp] theorem fallsThrough_plain (i : Instr) : i.plain.fallsThrough = i.fallsThrough := by
  unfold plain unfused
  split
  · rfl
  · split <;> rfl

theorem plain_eq_label : i.plain = .label l ↔ i = .label l := by
  unfold plain unfused
  split
  · simp
  · split <;> simp

theorem mem_successors_of_target (h : i.target? = some l) : l ∈ i.successors := by
  cases i <;> simp_all [target?, successors]

end Instr

theorem fillDispatch_map_plain (points : List ResumePoint) (code : List Instr) :
    (fillDispatch points code).map Instr.plain = code.map Instr.plain := by
  unfold fillDispatch
  split <;> rfl

/-- Up to fused additions and the table of the dispatch, the code of the body is that of the
session. -/
theorem Session.map_plain_toBody (s : Session) (function : Function) :
    (s.toBody function).code.map Instr.plain = s.code.toList.map Instr.plain := by
  unfold Session.toBody
  split
  · exact fillDispatch_map_plain ..
  · rfl

/-- The body that a session describes, for the function of the context. -/
abbrev Context.body (ctx : Context) (s : Session) : Body :=
  s.toBody ctx.function

/-! ### Availability at a position -/

namespace Flow

variable {U K A : Set Cell} {Λ : Typing} {code : List Instr} {i : Instr} {n : Nat}

/-- What is available in front of the instruction at a position. -/
def availableAt (Λ : Typing) (A : Set Cell) (code : List Instr) (n : Nat) : Set Cell :=
  out Λ A (code.take n)

/-- What every way to the position has to provide: at a label what the typing promises, elsewhere
what is available. -/
def neededAt (Λ : Typing) (A : Set Cell) (code : List Instr) (n : Nat) : Set Cell :=
  match code[n]? with
  | some (.label l) => Λ l
  | _ => availableAt Λ A code n

theorem availableAt_succ (hi : code[n]? = some i) :
    availableAt Λ A code (n + 1) = after Λ (availableAt Λ A code n) i := by
  unfold availableAt
  rw [List.take_add_one, hi, out_append]
  rfl

theorem neededAt_label {l : Label} (hi : code[n]? = some (.label l)) : neededAt Λ A code n = Λ l := by
  simp [neededAt, hi]

/-- Every instruction of certified code passes the check for what is available in front of it. -/
theorem Ok.step_at (h : Ok U Λ K A code) (hi : code[n]? = some i) :
    Step U Λ (availableAt Λ A code n) i := by
  induction code generalizing A n with
  | nil => simp at hi
  | cons j code ih =>
    cases n with
    | zero =>
      obtain rfl : j = i := by simpa using hi
      exact h.2.1
    | succ n => exact ih h.2.2 (by simpa using hi)

/-- The floor is available in front of every instruction, and behind the last one. -/
theorem Ok.floor_at (h : Ok U Λ K A code) (n : Nat) : K ⊆ availableAt Λ A code n := by
  have hleft : Ok U Λ K A (code.take n) := Ok.left (d := code.drop n) (by rwa [List.take_append_drop])
  exact hleft.floor_le_out

theorem Ok.neededAt_subset (h : Ok U Λ K A code) (n : Nat) :
    neededAt Λ A code n ⊆ availableAt Λ A code n := by
  unfold neededAt
  split
  · rename_i l hl
    exact (h.step_at hl).enters l (by simp [Instr.successors])
  · exact subset_rfl

theorem Ok.floor_neededAt (h : Ok U Λ K A code) (n : Nat) : K ⊆ neededAt Λ A code n := by
  unfold neededAt
  split
  · rename_i l hl
    have := h.floor_at (n + 1)
    rwa [availableAt_succ hl] at this
  · exact h.floor_at n

end Flow

/-! ### Regions in the code -/

/-- The code of a protected region inside the code of an outline. -/
theorem Outline.exists_region (hr : r ∈ o.regions) :
    ∃ pre post body, o.code = pre ++ .label r.tryStart :: body ++ .label r.handlerStart :: post ∧
      ∀ U Λ, o.Certified U Λ → Flow.Ok U Λ (Λ r.handlerStart) (Λ r.tryStart) body := by
  induction o with
  | nil => cases hr
  | item x rest ih =>
    obtain ⟨pre, post, body, hcode, hok⟩ := ih hr
    exact ⟨x.code ++ pre, post, body, by simp [code, hcode], fun U Λ h => hok U Λ h.2⟩
  | region r' t inner handler rest ihb ihh ih =>
    simp only [regions, List.mem_append, List.mem_cons] at hr
    rcases hr with (hr | hr) | rfl | hr
    · obtain ⟨pre, post, body, hcode, hok⟩ := ihb hr
      exact ⟨.label r'.tryStart :: pre, _, body, by simp [code, hcode]; rfl,
        fun U Λ h => hok U Λ h.2.1⟩
    · obtain ⟨pre, post, body, hcode, hok⟩ := ihh hr
      exact ⟨.label r'.tryStart :: inner.code ++ .label r'.handlerStart :: handlerOpening t ++ pre,
        _, body, by simp [code, hcode]; rfl, fun U Λ h => hok U Λ h.2.2.1⟩
    · exact ⟨[], _, inner.code, by simp [code]; rfl, fun U Λ h => h.1⟩
    · obtain ⟨pre, post, body, hcode, hok⟩ := ih hr
      exact ⟨.label r'.tryStart :: inner.code ++ .label r'.handlerStart ::
        (handlerOpening t ++ handler.code ++ handlerClosing t) ++ .label r'.handlerEnd :: pre, post,
        body, by simp [code, hcode], fun U Λ h => hok U Λ h.2.2.2⟩

/-- The protected range of a region of a legal outline ends where the handler starts. -/
theorem Outline.Legal.tryEnd_eq {f : Function} {z : Session} {J : Jumps}
    (ho : o.Legal f z J) (hr : r ∈ o.regions) :
    r.tryEnd = r.handlerStart := by
  induction o generalizing J with
  | nil => cases hr
  | item x rest ih => exact ih ho.2 hr
  | region r' t inner handler rest ihb ihh ih =>
    obtain ⟨hend, -, -, -, hbody, hhandler, hrest⟩ := ho
    simp only [regions, List.mem_append, List.mem_cons] at hr
    rcases hr with (hr | hr) | rfl | hr
    · exact ihb hbody hr
    · exact ihh hhandler hr
    · exact hend
    · exact ih hrest hr

theorem Outline.mem_code_of_mem_tops (hl : l ∈ o.tops) :
    .label l ∈ o.code := by
  induction o with
  | nil => cases hl
  | item x rest ih =>
    rcases List.mem_append.1 hl with hl | hl
    · refine List.mem_append_left _ ?_
      unfold Item.tops at hl
      split at hl <;> simp_all [Item.code]
    · exact List.mem_append_right _ (ih hl)
  | region r t body handler rest _ _ ih => simp [code, ih hl]

/-! ### A label stands in one place -/

theorem eq_of_placed {code : List Instr} (hnodup : (placedLabels code).Nodup) {n m : Nat}
    (hn : code[n]? = some (.label l)) (hm : code[m]? = some (.label l)) : n = m := by
  induction code generalizing n m with
  | nil => simp at hn
  | cons i code ih =>
    rw [placedLabels_cons, List.nodup_append] at hnodup
    obtain ⟨-, hrest, hapart⟩ := hnodup
    have hlater : ∀ k : Nat, code[k]? = some (Instr.label l) → l ∈ placedLabels code := fun k hk =>
      mem_placedLabels.2 (List.mem_of_getElem? hk)
    cases n with
    | zero =>
      cases m with
      | zero => rfl
      | succ m =>
        obtain rfl : i = .label l := by simpa using hn
        exact (hapart l (by simp [Instr.placed]) l (hlater m (by simpa using hm)) rfl).elim
    | succ n =>
      cases m with
      | zero =>
        obtain rfl : i = .label l := by simpa using hm
        exact (hapart l (by simp [Instr.placed]) l (hlater n (by simpa using hn)) rfl).elim
      | succ m => exact congrArg (· + 1) (ih hrest (by simpa using hn) (by simpa using hm))

/-! ### What legality says about single elements -/

namespace Outline.Legal

variable {f : Function} {z : Session} {o : Outline} {J : Jumps}

/-- An instruction that directs control stands where it may. -/
theorem control (ho : o.Legal f z J) {i : Instr} (hi : i ∈ o.code) :
    (∃ J', i.Legal f z J') ∨ i.endsBlock = false ∨ i = .endFinally ∨ ∃ l, i = .label l := by
  induction o generalizing J with
  | nil => cases hi
  | item x rest ih =>
    rcases List.mem_append.1 hi with hi | hi
    · cases x with
      | instr j =>
        obtain rfl : i = j := by simpa [Item.code] using hi
        exact .inl ⟨J, ho.1⟩
      | point p => cases hi
      | exit e => cases hi
    · exact ih ho.2 hi
  | region r t body handler rest ihb ihh ih =>
    obtain ⟨-, -, -, -, hbody, hhandler, hrest⟩ := ho
    simp only [code, List.mem_append, List.mem_cons] at hi
    rcases hi with ((rfl | hi) | rfl | (hi | hi) | hi) | rfl | hi
    · exact .inr (.inr (.inr ⟨_, rfl⟩))
    · exact ihb hbody hi
    · exact .inr (.inr (.inr ⟨_, rfl⟩))
    · cases t with
      | none => cases hi
      | some exception =>
        obtain rfl := List.mem_singleton.1 hi
        exact .inr (.inl rfl)
    · exact ihh hhandler hi
    · cases t with
      | none =>
        obtain rfl := List.mem_singleton.1 hi
        exact .inr (.inr (.inl rfl))
      | some exception => cases hi
    · exact .inr (.inr (.inr ⟨_, rfl⟩))
    · exact ih hrest hi

/-- A table of a dispatch is empty while the code is lowered. -/
theorem dispatch (ho : o.Legal f z J) {targets : List StateLabel} {start : Label}
    (hi : .dispatch targets start ∈ o.code) : f.isResumable = true ∧ targets = [] := by
  rcases ho.control hi with ⟨J', hJ⟩ | h | h | ⟨l, h⟩
  · exact ⟨hJ.1, hJ.2.1⟩
  all_goals cases h

/-- Only a resumable function has resume points. -/
theorem point (ho : o.Legal f z J) {p : ResumePoint} (hp : p ∈ o.points) :
    f.isResumable = true := by
  induction o generalizing J with
  | nil => cases hp
  | item x rest ih =>
    rcases List.mem_append.1 hp with hp | hp
    · cases x with
      | point q => exact ho.1.1
      | _ => cases hp
    · exact ih ho.2 hp
  | region r t body handler rest ihb ihh ih =>
    obtain ⟨-, -, -, -, hbody, hhandler, hrest⟩ := ho
    rcases List.mem_append.1 hp with hp | hp
    · rcases List.mem_append.1 hp with hp | hp
      · exact ihb hbody hp
      · exact ihh hhandler hp
    · exact ih hrest hp

end Outline.Legal

/-- A resume point can rely on what the typing promises for its label. -/
theorem Outline.Certified.point {U : Set Cell} {Λ : Typing} (ho : o.Certified U Λ)
    {p : ResumePoint} (hp : p ∈ o.points) : Λ p.label ⊆ p.cells ∪ U := by
  induction o with
  | nil => cases hp
  | item x rest ih =>
    rcases List.mem_append.1 hp with hp | hp
    · exact ho.1 p hp
    · exact ih ho.2 hp
  | region r t body handler rest ihb ihh ih =>
    obtain ⟨-, hbody, hhandler, hrest⟩ := ho
    rcases List.mem_append.1 hp with hp | hp
    · rcases List.mem_append.1 hp with hp | hp
      · exact ihb hbody hp
      · exact ihh hhandler hp
    · exact ih hrest hp

/-! ### Ways and certificates -/

/-- The cells that the instruction at the position writes. -/
def Body.writtenAt (b : Body) (n : Nat) : Set Cell :=
  {c | ∃ i, b.code[n]? = some i ∧ c ∈ i.writes}

/-- The cells that re-entry at the position defines. -/
def Body.reenteredAt (b : Body) (n : Nat) : Set Cell :=
  {c | ∃ p ∈ b.resumePoints, b.Placed p.label n ∧ c ∈ p.cells}

namespace Finished

variable {U : Set Cell} {ctx : Context} {s : Session} {o : Outline} {Λ : Typing}
  {n m start : Nat} {i : Instr}

section

variable (h : Finished U ctx s o)

include h

/-- What stands at a position of the body stands there in the outline. -/
theorem code_at (hi : (ctx.body s).code[n]? = some i) :
    ∃ j, o.code[n]? = some j ∧ j.plain = i.plain := by
  have heq : (ctx.body s).code.map Instr.plain = o.code.map Instr.plain := by
    rw [Session.map_plain_toBody, ← h.code, List.map_map]
    exact List.map_congr_left fun j _ => (Instr.plain_unfused j).symm
  have hn := congrArg (·[n]?) heq
  simp only [List.getElem?_map, hi, Option.map_some] at hn
  obtain ⟨j, hj, hplain⟩ := Option.map_eq_some_iff.1 hn.symm
  exact ⟨j, hj, hplain⟩

theorem placed_at {l : Label} (hl : (ctx.body s).Placed l n) :
    o.code[n]? = some (.label l) := by
  obtain ⟨j, hj, hplain⟩ := h.code_at hl
  rw [hj, Instr.plain_eq_label.1 hplain]

/-- The targets of the dispatch are resume points. -/
theorem dispatch_target {targets : List StateLabel} {start : Label}
    (hi : (ctx.body s).code[n]? = some (.dispatch targets start)) {target : StateLabel}
    (htarget : target ∈ targets) : ∃ p ∈ (ctx.body s).resumePoints, p.label = target.label := by
  have hempty : .dispatch targets start ∈ s.code.toList → targets = [] := by
    intro hmem
    refine (h.legal.dispatch (?_ : Instr.dispatch targets start ∈ o.code)).2
    rw [← h.code]
    exact List.mem_map_of_mem (f := Instr.unfused) hmem
  unfold Context.body Session.toBody at hi
  split at hi
  · unfold fillDispatch at hi
    split at hi
    · rename_i table start' rest hcode
      cases n with
      | zero =>
        simp only [List.getElem?_cons_zero, Option.some.injEq, Instr.dispatch.injEq] at hi
        obtain ⟨rfl, -⟩ := hi
        obtain ⟨p, hp, rfl⟩ := List.mem_map.1 htarget
        exact ⟨p, hp, rfl⟩
      | succ n =>
        have := hempty (hcode ▸ .tail _ (by grind))
        simp [this] at htarget
    · have := hempty (List.mem_of_getElem? hi)
      simp [this] at htarget
  · have := hempty (List.mem_of_getElem? hi)
    simp [this] at htarget

/-- In a protected range, what its handler relies on is provided everywhere. -/
theorem handler_subset (hcert : o.Certified U Λ) {r : ExceptionRegion}
    (hr : r ∈ (ctx.body s).regions) (hn : (ctx.body s).InTry r n) :
    Λ r.handlerStart ⊆ Flow.neededAt Λ U o.code n := by
  have hr : r ∈ o.regions := h.regions ▸ hr
  obtain ⟨pre, post, inner, hcode, hok⟩ := Outline.exists_region hr
  have hfloor := hok U Λ hcert
  obtain ⟨first, last, hfirst, hlast, hle, hlt⟩ := hn
  have hfirst := h.placed_at hfirst
  have hlast := h.placed_at hlast
  rw [h.legal.tryEnd_eq hr] at hlast
  -- the labels stand in one place, so the range is the one in the outline
  have hpre : first = pre.length := eq_of_placed h.nodup hfirst (by simp [hcode])
  have hpost : last = pre.length + 1 + inner.length := by
    refine eq_of_placed h.nodup hlast ?_
    rw [hcode, List.append_assoc, List.cons_append, List.getElem?_append_right (by omega)]
    simp [show pre.length + 1 + inner.length - pre.length = inner.length + 1 by omega]
  subst hpre hpost
  obtain ⟨k, rfl⟩ := Nat.exists_eq_add_of_le hle
  cases k with
  | zero =>
    have : o.code[pre.length + 0]? = some (.label r.tryStart) := hfirst
    rw [Flow.neededAt_label this]
    exact hfloor.floor_le
  | succ k =>
    have hk : k < inner.length := by omega
    have hget : o.code[pre.length + (k + 1)]? = inner[k]? := by
      rw [hcode, List.append_assoc, List.getElem?_append_right (by omega)]
      simp [List.getElem?_append_left hk]
    have havail : Flow.availableAt Λ U o.code (pre.length + (k + 1))
        = Flow.availableAt Λ (Λ r.tryStart) inner k := by
      unfold Flow.availableAt
      rw [hcode, List.append_assoc, List.take_length_add_append, Flow.out_append]
      simp [List.take_append_of_le_length hk.le, Flow.after]
    have heq : Flow.neededAt Λ U o.code (pre.length + (k + 1))
        = Flow.neededAt Λ (Λ r.tryStart) inner k := by
      unfold Flow.neededAt
      rw [hget, havail]
    exact heq ▸ hfloor.floor_neededAt k

/-- Along an edge, what is needed behind it is provided in front of it, is written on the way, or is
defined by re-entry. -/
theorem edge_needs (hcert : o.Certified U Λ)
    (hok : Flow.Ok U Λ U U o.code) (hedge : (ctx.body s).Edge n m) :
    Flow.neededAt Λ U o.code m ⊆
      Flow.neededAt Λ U o.code n ∪ (ctx.body s).writtenAt n ∪ (ctx.body s).reenteredAt m := by
  have hjump : ∀ {i j : Instr} {l : Label}, (ctx.body s).code[n]? = some i →
      o.code[n]? = some j → j.plain = i.plain → i ≠ .label l → l ∈ i.successors →
      (ctx.body s).Placed l m → Flow.neededAt Λ U o.code m ⊆ Flow.neededAt Λ U o.code n := by
    intro i j l hi hj hplain hne hl hm
    have hl : l ∈ j.successors := by rwa [← Instr.successors_plain, hplain, Instr.successors_plain]
    rw [Flow.neededAt_label (h.placed_at hm)]
    have henters := (hok.step_at hj).enters l hl
    unfold Flow.neededAt
    split
    · rename_i l' hlabel
      obtain rfl : j = .label l' := by simpa [hj] using hlabel
      obtain rfl : l = l' := by simpa [Instr.successors] using hl
      exact (hne (Instr.plain_eq_label.1 hplain.symm)).elim
    · exact henters
  cases hedge with
  | next hi hfalls =>
    rename_i i
    obtain ⟨j, hj, hplain⟩ := h.code_at hi
    have hfalls : j.fallsThrough = true := by
      rw [← Instr.fallsThrough_plain, hplain, Instr.fallsThrough_plain, hfalls]
    have hwrites : j.writes = i.writes := by rw [← Instr.writes_plain, hplain, Instr.writes_plain]
    refine (hok.neededAt_subset _).trans ?_
    rw [Flow.availableAt_succ hj]
    have hplain : ∀ c ∈ Flow.availableAt Λ U o.code n ∪ {c | c ∈ j.writes},
        (∀ l, j ≠ .label l) →
        c ∈ Flow.neededAt Λ U o.code n ∪ (ctx.body s).writtenAt n
          ∪ (ctx.body s).reenteredAt (n + 1) := by
      rintro c (hc | hc) hne
      · refine .inl (.inl ?_)
        unfold Flow.neededAt
        split
        · rename_i l hl
          exact (hne l (by simpa [hj] using hl)).elim
        · exact hc
      · exact .inl (.inr ⟨i, hi, hwrites ▸ hc⟩)
    cases j with
    | label l =>
      intro c hc
      exact .inl (.inl (by rwa [Flow.neededAt_label hj]))
    | define result op => exact fun c hc => hplain c hc (by simp)
    | perform effect => exact fun c hc => hplain c hc (by simp)
    | branchIf expected condition target => exact fun c hc => hplain c hc (by simp)
    | _ => cases hfalls
  | jump hi htarget hm =>
    obtain ⟨j, hj, hplain⟩ := h.code_at hi
    refine (hjump hi hj hplain ?_ (Instr.mem_successors_of_target htarget) hm).trans
      (Set.subset_union_left.trans Set.subset_union_left)
    rintro rfl
    cases htarget
  | dispatch hi hl hm =>
    obtain ⟨j, hj, hplain⟩ := h.code_at hi
    rcases hl with rfl | ⟨target, htarget, rfl⟩
    · exact (hjump hi hj hplain (by simp) (by simp [Instr.successors]) hm).trans
        (Set.subset_union_left.trans Set.subset_union_left)
    · obtain ⟨p, hp, hlabel⟩ := h.dispatch_target hi htarget
      rw [Flow.neededAt_label (h.placed_at hm), ← hlabel]
      refine (hcert.point (h.points ▸ hp)).trans ?_
      rintro c (hc | hc)
      · exact .inr ⟨p, hp, hlabel ▸ hm, hc⟩
      · exact .inl (.inl (hok.floor_neededAt n hc))
  | throw hr hn hm =>
    rw [Flow.neededAt_label (h.placed_at hm)]
    exact (h.handler_subset hcert hr hn).trans (Set.subset_union_left.trans Set.subset_union_left)

/-- A cell that is read was written on every way that leads to the instruction. -/
theorem path_reads (hU : s.Exempts U) {passed : List Nat} {c : Cell}
    (hstart : start = 0 ∨ (ctx.body s).ResumesAt start)
    (hpath : (ctx.body s).Path start n passed) (hi : (ctx.body s).code[n]? = some i)
    (hc : c ∈ i.reads) :
    c ∈ U ∨ ∃ k ∈ passed, c ∈ (ctx.body s).writtenAt k ∨ c ∈ (ctx.body s).reenteredAt k := by
  obtain ⟨Λ, -, hcert, hok⟩ := h.flow hU
  have hneeded : ∀ {n passed}, (ctx.body s).Path start n passed → ∀ c ∈ Flow.neededAt Λ U o.code n,
      c ∈ U ∨ (∃ k ∈ passed, c ∈ (ctx.body s).writtenAt k ∨ c ∈ (ctx.body s).reenteredAt k) ∨
        c ∈ (ctx.body s).reenteredAt n := by
    intro n passed hpath
    induction hpath with
    | here =>
      intro c hc
      rcases hstart with rfl | ⟨p, hp, hplaced⟩
      · exact .inl (hok.neededAt_subset 0 hc)
      · rw [Flow.neededAt_label (h.placed_at hplaced)] at hc
        rcases hcert.point (h.points ▸ hp) hc with hc | hc
        · exact .inr (.inr ⟨p, hp, hplaced, hc⟩)
        · exact .inl hc
    | step hpath hedge ih =>
      intro c hc
      rcases h.edge_needs hcert hok hedge hc with (hc | hc) | hc
      · rcases ih c hc with hc | ⟨k, hk, hc⟩ | hc
        · exact .inl hc
        · exact .inr (.inl ⟨k, .tail _ hk, hc⟩)
        · exact .inr (.inl ⟨_, (.head _), .inr hc⟩)
      · exact .inr (.inl ⟨_, (.head _), .inl hc⟩)
      · exact .inr (.inr hc)
  obtain ⟨j, hj, hplain⟩ := h.code_at hi
  have hreads : c ∈ j.reads := by rwa [← Instr.reads_plain, hplain, Instr.reads_plain]
  have hlabel : ∀ l, j ≠ .label l := by
    rintro l rfl
    simp [Instr.reads, Instr.uses] at hreads
  have hmem : c ∈ Flow.neededAt Λ U o.code n := by
    have := (hok.step_at hj).reads c hreads
    unfold Flow.neededAt
    split
    · rename_i l hl
      exact (hlabel l (by simpa [hj] using hl)).elim
    · exact this
  rcases hneeded hpath c hmem with hc | hc | ⟨p, hp, hplaced, -⟩
  · exact .inl hc
  · exact .inr hc
  · exact (hlabel p.label (by simpa [hj] using h.placed_at hplaced)).elim

end

end Finished

end ScriptLowering
