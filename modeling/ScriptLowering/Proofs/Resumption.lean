import ScriptLowering.Proofs.Course.Lowered

/-!
# The resume table

The driver of a resumable function knows it only by its table: the resume points with their states
and labels, and the fields that its capture object has for the state machine. The table is filled
while the body is lowered, one entry at each suspension and at each region that rejections are
routed to, and it is exact: states count from one, suspensions and resume points for values
correspond in order, every suspension stands in front of the label where its value arrives, and
every field that is not the home of a binding is listed once.

## Main results

* `Session.Step.tables`, `Session.Step.suspends`, `Session.Step.anchored`: what every step
  preserves;
* `Function.compile_resumeTable`: the table of a compiled body is exact.
-/

namespace ScriptLowering

variable {i : Instr} {code code' : List Instr}

/-- The resume point of a suspension. -/
def Instr.resumption? : Instr → Option ResumePoint
  | .suspend kind _ state l result _ => some ⟨state, l, some result, kind.resumeKind⟩
  | _ => none

/-- Where the suspension goes on when what it waits for is rejected. -/
def Instr.reject? : Instr → Option RejectRoute
  | .suspend _ _ _ _ _ reject => reject
  | _ => none

/-- The field of the function's own capture object that the instruction loads or stores. -/
def Instr.leafField? : Instr → Option FieldRef
  | .define _ (.loadLeafField field) | .perform (.storeLeafField field _) => some field
  | _ => none

/-- The instruction enters the body where the resume state says. -/
def Instr.isDispatch : Instr → Bool
  | .dispatch _ _ => true
  | _ => false

namespace Session

variable {w : Setting} {s s' : Session}
variable {code : Array Instr} {i : Instr} {p : ResumePoint}

/-! ### Tables -/

/-- States count from one, and state fields are listed once. Only a resumable function has any. -/
structure Tables (w : Setting) (s : Session) : Prop where
  plain : w.function.isResumable = false → s.resumePoints = #[] ∧ s.stateFields = #[]
  numbered : ∀ {k : Nat} {p : ResumePoint}, s.resumePoints[k]? = some p → p.state = k + 1
  nodup : s.stateFields.toList.Nodup

theorem tables_empty (w : Setting) : ({} : Session).Tables w :=
  ⟨fun _ => ⟨rfl, rfl⟩, nofun, .nil⟩

theorem Tables.of_same (h : s.Tables w) (hpoints : s'.resumePoints = s.resumePoints)
    (hfields : s'.stateFields = s.stateFields) : s'.Tables w where
  plain := by
    rw [hpoints, hfields]
    exact h.plain
  numbered hp := h.numbered (hpoints ▸ hp)
  nodup := hfields ▸ h.nodup

/-- One more resume point, with the next state. -/
theorem Tables.push (h : s.Tables w) (hres : w.function.isResumable)
    (hp : p.state = s.resumePoints.size + 1) (hpoints : s'.resumePoints = s.resumePoints.push p)
    (hfields : s'.stateFields = s.stateFields) : s'.Tables w where
  plain hplain := absurd (hres.symm.trans hplain) (by simp)
  numbered {k q} hq := by
    rw [hpoints, Array.getElem?_push] at hq
    split at hq
    · rename_i heq
      cases hq
      rw [heq]
      exact hp
    · exact h.numbered hq
  nodup := hfields ▸ h.nodup

theorem Step.tables (h : s.Tables w) (hstep : Step w s s') : s'.Tables w := by
  cases hstep with
  | aside hsame => exact h.of_same hsame.points hsame.fields
  | @stateField name hres hnew =>
    refine ⟨fun hplain => absurd (hres.symm.trans hplain) (by simp), h.numbered, ?_⟩
    rw [Array.toList_push]
    exact List.nodup_append.2 ⟨h.nodup, List.nodup_singleton _, fun a ha b hb heq =>
      hnew (Array.mem_toList_iff.1 (List.mem_singleton.1 hb ▸ heq ▸ ha))⟩
  | suspend hres => exact h.push hres rfl rfl rfl
  | rejectPoint hasync =>
    refine h.push ?_ rfl rfl rfl
    simp [Function.isResumable, hasync]
  | _ => exact h.of_same rfl rfl

/-! ### Suspensions -/

/-- Every suspension stands in front of the label where it goes on. -/
def Followed (code : Array Instr) : Prop :=
  ∀ ⦃k : Nat⦄ ⦃i : Instr⦄ ⦃p : ResumePoint⦄, code[k]? = some i → i.resumption? = some p →
    code[k + 1]? = some (.label p.label)

theorem Followed.push (h : Followed code) (hi : i.resumption? = none) : Followed (code.push i) := by
  intro k j p hj hp
  rw [Array.getElem?_push] at hj
  split at hj
  · cases hj
    cases hi.symm.trans hp
  · have hnext := h hj hp
    have hlt := (Array.getElem?_eq_some_iff.1 hnext).1
    rw [Array.getElem?_push_lt hlt, ← Array.getElem?_eq_getElem hlt]
    exact hnext

theorem Followed.pushSuspension (h : Followed code)
    (hi : i.resumption? = some p) : Followed ((code.push i).push (.label p.label)) := by
  intro k j q hj hq
  rw [Array.getElem?_push] at hj
  split at hj
  · cases hj
    cases hq
  · rw [Array.getElem?_push] at hj
    split at hj
    · rename_i heq
      cases hj
      obtain rfl := Option.some.inj (hi.symm.trans hq)
      have hlast : k + 1 = (code.push i).size := by rw [heq, Array.size_push]
      rw [hlast, Array.getElem?_push_size]
    · have hnext := h hj hq
      have hlt := (Array.getElem?_eq_some_iff.1 hnext).1
      rw [Array.getElem?_push_lt (by simp; omega), Array.getElem_push_lt hlt,
        ← Array.getElem?_eq_getElem hlt]
      exact hnext

/-- The last instruction can be taken back unless it is a label. -/
theorem Followed.front (h : Followed (code.push i)) (hi : ∀ l, i ≠ .label l) : Followed code := by
  intro k j p hj hp
  have hlt := (Array.getElem?_eq_some_iff.1 hj).1
  have hnext := h (by rw [Array.getElem?_push_lt hlt, ← Array.getElem?_eq_getElem hlt]; exact hj) hp
  rw [Array.getElem?_push] at hnext
  split at hnext
  · exact absurd (Option.some.inj hnext) (hi _)
  · exact hnext

/-- Suspensions correspond to the resume points for values, and the dispatch stands in front. -/
structure Suspends (w : Setting) (s : Session) : Prop where
  resumptions : s.code.toList.filterMap Instr.resumption?
    = s.resumePoints.toList.filter fun p => p.kind != .reject
  followed : Followed s.code
  dispatch : ∀ {k : Nat} {i : Instr}, s.code[k]? = some i → i.isDispatch = true →
    k = 0 ∧ w.function.isResumable = true

theorem suspends_empty (w : Setting) : ({} : Session).Suspends w :=
  ⟨rfl, nofun, nofun⟩

/-- One more instruction that is neither a suspension nor the dispatch. -/
theorem Suspends.push (h : s.Suspends w) (hcode : s'.code = s.code.push i)
    (hpoints : s'.resumePoints = s.resumePoints) (hresume : i.resumption? = none)
    (hdispatch : i.isDispatch = false) : s'.Suspends w where
  resumptions := by
    rw [hcode, hpoints, Array.toList_push, List.filterMap_append, h.resumptions]
    simp [hresume]
  followed := hcode ▸ h.followed.push hresume
  dispatch {k j} hj hj' := by
    rw [hcode, Array.getElem?_push] at hj
    split at hj
    · cases hj
      simp [hdispatch] at hj'
    · exact h.dispatch hj hj'

/-- The last instruction can be taken back if it is a definition. -/
theorem Suspends.front (h : s.Suspends w) {front : Array Instr} {t : Temp} {op : Operation}
    (hcode : s.code = front.push (.define t op)) : Suspends w { s with code := front } where
  resumptions := by
    have hresumptions := h.resumptions
    rw [hcode, Array.toList_push, List.filterMap_append] at hresumptions
    exact (List.append_nil _).symm.trans hresumptions
  followed := Followed.front (hcode ▸ h.followed) (by simp)
  dispatch {k i} hi := by
    have hlt := (Array.getElem?_eq_some_iff.1 hi).1
    refine h.dispatch ?_
    rw [hcode, Array.getElem?_push_lt hlt, ← Array.getElem?_eq_getElem hlt]
    exact hi

theorem Suspends.of_same (h : s.Suspends w) (hcode : s'.code = s.code)
    (hpoints : s'.resumePoints = s.resumePoints) : s'.Suspends w where
  resumptions := by
    rw [hcode, hpoints]
    exact h.resumptions
  followed := hcode ▸ h.followed
  dispatch hi := h.dispatch (hcode ▸ hi)

theorem Step.suspends (h : s.Suspends w) (hstep : Step w s s') : s'.Suspends w := by
  cases hstep with
  | aside hsame => exact h.of_same hsame.code hsame.points
  | @emit i hi =>
    have hfounded := hi.founded
    refine h.push rfl rfl ?_ ?_
    · cases i with
      | suspend => exact hfounded.elim
      | _ => rfl
    · cases i with
      | dispatch => exact hfounded.elim
      | _ => rfl
  | fuse hadded =>
    obtain ⟨front, hcode, hfused⟩ := exists_front_of_fuse hadded
    exact (h.front hcode).push hfused rfl rfl rfl
  | store => exact h.push rfl rfl rfl rfl
  | @suspend kind value result label reject hres =>
    refine ⟨?_, h.followed.pushSuspension (p := ⟨_, label, some result, kind.resumeKind⟩) rfl, ?_⟩
    · have hkind : (kind.resumeKind != .reject) = true := by cases kind <;> rfl
      simp only [Session.suspend, Array.toList_push, List.filterMap_append, List.filter_append,
        h.resumptions]
      simp [Instr.resumption?, hkind]
    · intro k i hi hdispatch
      simp only [Session.suspend, Array.getElem?_push] at hi
      split at hi
      · cases hi
        cases hdispatch
      · split at hi
        · cases hi
          cases hdispatch
        · exact h.dispatch hi hdispatch
  | rejectPoint =>
    refine ⟨?_, h.followed, h.dispatch⟩
    simp only [Session.addReject, Array.toList_push, List.filter_append, h.resumptions]
    simp
  | enter hres hcode =>
    have hpoints := h.resumptions
    rw [hcode] at hpoints
    refine ⟨hpoints, ?_, ?_⟩
    · intro k i p hi hp
      obtain ⟨hk, rfl⟩ := Array.getElem?_eq_some_iff.1 hi
      obtain rfl : k = 0 := by simpa using hk
      cases hp
    · intro k i hi _
      have hk := (Array.getElem?_eq_some_iff.1 hi).1
      exact ⟨by simpa using hk, hres⟩
  | _ => exact h.of_same rfl rfl

/-! ### Fields and routes -/

end Session

/-- The fields and states that the instruction names exist. -/
structure Instr.Anchored (w : Setting) (s : Session) (i : Instr) : Prop where
  field : ∀ field, i.leafField? = some field → s.Owns w field
  reject : ∀ route, i.reject? = some route →
    s.Holds w (.point route.state) ∧ s.Holds w (.field route.pending)

namespace Session

variable {w : Setting} {s s' : Session}
variable {i : Instr}

/-- Every instruction names what exists. -/
def Anchored (w : Setting) (s : Session) : Prop :=
  ∀ i ∈ s.code, i.Anchored w s

theorem Extends.anchored {n : Nat} (h : s.Extends n s') (hi : i.Anchored w s) :
    i.Anchored w s' where
  field field hfield := h.owns (hi.field field hfield)
  reject route hroute := (hi.reject route hroute).imp (fun hp => h.holds hp (.inl rfl))
    fun hf => h.holds hf (.inl rfl)

/-- The dispatch names neither fields nor states for rejections. -/
theorem anchored_dispatch (targets : List StateLabel) (start : Label) :
    (Instr.dispatch targets start).Anchored w s :=
  ⟨nofun, nofun⟩

/-- An instruction names only what it was checked for. -/
theorem anchored_of_founded (h : i.Founded w s) : i.Anchored w s := by
  refine ⟨fun field hfield => ?_, fun route hroute => ?_⟩
  · unfold Instr.leafField? at hfield
    split at hfield
    · exact Option.some.inj hfield ▸ h
    · exact Option.some.inj hfield ▸ h
    · cases hfield
  · unfold Instr.reject? at hroute
    split at hroute
    · exact h.elim
    · cases hroute

theorem Step.anchored (hs : s.Sound w) (h : s.Anchored w) (hstep : Step w s s') : s'.Anchored w := by
  have hext := hstep.extends hs
  refine hstep.forall_code (fun i hi => hext.anchored (h i hi))
    (fun i hi => hext.anchored (anchored_of_founded hi)) (fun slot value => ⟨nofun, nofun⟩)
    (fun kind value state label result reject hreject => ?_) (anchored_dispatch [])
  exact hext.anchored ⟨nofun, hreject⟩

/-- What stands first stays first, if it is the dispatch. -/
theorem Step.first {start : Label} (h : s.code[0]? = some (.dispatch [] start))
    (hstep : Step w s s') : s'.code[0]? = some (.dispatch [] start) := by
  have hpush : ∀ {code : Array Instr} {i : Instr}, code[0]? = some (.dispatch [] start) →
      (code.push i)[0]? = some (.dispatch [] start) := by
    intro code i hcode
    have hlt := (Array.getElem?_eq_some_iff.1 hcode).1
    rw [Array.getElem?_push_lt hlt, ← Array.getElem?_eq_getElem hlt]
    exact hcode
  cases hstep with
  | aside hsame => exact hsame.code ▸ h
  | emit => exact hpush h
  | fuse hadded =>
    obtain ⟨front, hcode, hfused⟩ := exists_front_of_fuse hadded
    rw [hfused]
    rw [hcode, Array.getElem?_push] at h
    split at h
    · cases h
    · exact hpush h
  | store => exact hpush h
  | suspend => exact hpush (hpush h)
  | enter hres hcode =>
    rw [hcode] at h
    cases h
  | _ => exact h

end Session

/-! ### Bodies -/

namespace Body

/-- The field of the function's own capture object is listed, or a binding lives in it. -/
def Lists (w : Setting) (b : Body) (field : FieldRef) : Prop :=
  (field.scope = w.leafName ∧ field.name ∈ b.stateFields) ∨ w.BindingField field

/-- The body of a function that runs in one piece. -/
structure RunsThrough (w : Setting) (b : Body) : Prop where
  noSuspension : ∀ i ∈ b.code, i.resumption? = none
  noDispatch : ∀ i ∈ b.code, i.isDispatch = false
  points : b.resumePoints = []
  stateFields : b.stateFields = []
  /-- Every field of the capture object is the home of a binding. -/
  fields : ∀ i ∈ b.code, ∀ field, i.leafField? = some field → w.BindingField field

/-- The resume table says how the body can be entered and which fields it needs. -/
structure ResumesByTable (w : Setting) (b : Body) : Prop where
  /-- The body starts with the dispatch to all resume points. -/
  dispatch : ∃ start, b.code[0]? =
    some (.dispatch (b.resumePoints.map fun p => ⟨p.state, p.label⟩) start)
  /-- There is no other dispatch. -/
  first : ∀ {n : Nat} {i : Instr}, b.code[n]? = some i → i.isDispatch = true → n = 0
  /-- States count from one. -/
  numbered : ∀ {n : Nat} {p : ResumePoint}, b.resumePoints[n]? = some p → p.state = n + 1
  /-- Suspensions and the resume points for values correspond, in order. -/
  resumptions : b.code.filterMap Instr.resumption? = b.resumePoints.filter fun p => p.kind != .reject
  /-- Every suspension stands in front of the label where it goes on. -/
  followed : ∀ {n : Nat} {i : Instr} {p : ResumePoint}, b.code[n]? = some i →
    i.resumption? = some p → b.code[n + 1]? = some (.label p.label)
  /-- A rejection goes on at a resume point for rejections, and its reason goes into a listed
  field. -/
  rejects : ∀ i ∈ b.code, ∀ route, i.reject? = some route →
    (∃ p ∈ b.resumePoints, p.state = route.state ∧ p.kind = .reject) ∧
      route.pending.scope = w.leafName ∧ route.pending.name ∈ b.stateFields
  fields : ∀ i ∈ b.code, ∀ field, i.leafField? = some field → b.Lists w field
  nodup : b.stateFields.Nodup

variable {w : Setting} {b b' : Body}

end Body

namespace Course

variable {w : Setting} {entry s : Session}

section

variable (h : Course w entry s)

include h

theorem tables : s.Tables w :=
  h.invariant (Session.tables_empty w) fun _ htables hstep => hstep.tables htables

theorem suspends : s.Suspends w :=
  h.invariant (Session.suspends_empty w) fun _ hsuspends hstep => hstep.suspends hsuspends

theorem anchored : s.Anchored w :=
  h.invariant (by simp [Session.Anchored]) fun hs hanchored hstep => hstep.anchored hs hanchored

theorem exists_dispatch (hres : w.function.isResumable) :
    ∃ start, s.code[0]? = some (.dispatch [] start) := by
  obtain ⟨start, hentry⟩ := h.dispatch hres
  have hs := h.first.sound (Session.sound_empty w)
  exact ⟨start, h.rest.invariant hs (by rw [hentry]; rfl) fun _ hfirst hstep => hstep.first hfirst⟩

/-- The lowered body of a function that runs in one piece. -/
theorem runsThrough (hplain : w.function.isResumable = false) :
    (s.toBody w.function).RunsThrough w := by
  obtain ⟨hpoints, hfields⟩ := h.tables.plain hplain
  have hcode : (s.toBody w.function).code = s.code.toList := by simp [Session.toBody, hplain]
  refine ⟨fun i hi => ?_, fun i hi => ?_, by simp [Session.toBody, hpoints],
    by simp [Session.toBody, hfields], fun i hi field hfield => ?_⟩
  · have hnone := h.suspends.resumptions
    rw [hpoints] at hnone
    exact List.filterMap_eq_nil_iff.1 hnone i (hcode ▸ hi)
  · by_contra hdispatch
    obtain ⟨k, hk⟩ := List.mem_iff_getElem?.1 (hcode ▸ hi)
    obtain ⟨-, hres⟩ := h.suspends.dispatch (Array.getElem?_toList ▸ hk) (by simpa using hdispatch)
    simp [hplain] at hres
  · rcases (h.anchored i (Array.mem_toList_iff.1 (hcode ▸ hi))).field field hfield with hlisted | hbound
    · have hnone : field.name ∈ s.stateFields := hlisted.2
      simp [hfields] at hnone
    · exact hbound

/-- The lowered body of a resumable function. -/
theorem resumesByTable (hres : w.function.isResumable) :
    (s.toBody w.function).ResumesByTable w := by
  obtain ⟨start, hfirst⟩ := h.exists_dispatch hres
  obtain ⟨rest, hlist⟩ : ∃ rest, s.code.toList = .dispatch [] start :: rest := by
    rw [← Array.getElem?_toList] at hfirst
    cases hcode : s.code.toList with
    | nil => simp [hcode] at hfirst
    | cons i rest =>
      obtain rfl : i = .dispatch [] start := by simpa [hcode] using hfirst
      exact ⟨rest, rfl⟩
  have hcode : (s.toBody w.function).code
      = .dispatch (s.resumePoints.toList.map fun p => ⟨p.state, p.label⟩) start :: rest := by
    simp [Session.toBody, hres, hlist, fillDispatch]
  have hrest : ∀ {n : Nat}, (s.toBody w.function).code[n + 1]? = s.code[n + 1]? := by
    intro n
    rw [hcode, ← Array.getElem?_toList, hlist]
    rfl
  have hanchored : ∀ i ∈ (s.toBody w.function).code, i.Anchored w s := by
    intro i hi
    rcases Session.mem_toBody hi with hi | ⟨targets, start, rfl⟩
    · exact h.anchored i hi
    · exact Session.anchored_dispatch targets start
  refine ⟨⟨start, by rw [hcode]; rfl⟩, fun {n i} hi hdispatch => ?_, fun hp => ?_, ?_,
    fun {n i p} hi hp => ?_, fun i hi route hroute => ?_, fun i hi field hfield => ?_, h.tables.nodup⟩
  · cases n with
    | zero => rfl
    | succ n =>
      rw [hrest] at hi
      exact (h.suspends.dispatch hi hdispatch).1
  · exact h.tables.numbered (Array.getElem?_toList ▸ hp)
  · have hsame := h.suspends.resumptions
    rw [hlist] at hsame
    rw [hcode]
    exact hsame
  · cases n with
    | zero =>
      rw [hcode] at hi
      cases hi
      cases hp
    | succ n =>
      rw [hrest] at hi ⊢
      exact h.suspends.followed hi hp
  · obtain ⟨⟨p, hp, hstate⟩, hpending⟩ := (hanchored i hi).reject route hroute
    exact ⟨⟨p, Array.mem_toList_iff.2 hp, hstate⟩, hpending.1, Array.mem_toList_iff.2 hpending.2⟩
  · rcases (hanchored i hi).field field hfield with hlisted | hbound
    · exact .inl ⟨hlisted.1, Array.mem_toList_iff.2 hlisted.2⟩
    · exact .inr hbound

end

end Course

/-! ### The passes -/

theorem Instr.resumption?_of_isSoft (h : i.isSoft) : i.resumption? = none := by
  cases i with
  | suspend => cases h
  | _ => rfl

theorem Instr.isSoft_of_isDispatch (h : i.isDispatch) : i.isSoft = false := by
  cases i with
  | dispatch => rfl
  | _ => cases h

theorem Instr.isSoft_of_resumption {p : ResumePoint} (h : i.resumption? = some p) :
    i.isSoft = false := by
  cases i with
  | suspend => rfl
  | _ => cases h

theorem Instr.isSoft_of_reject {route : RejectRoute} (h : i.reject? = some route) :
    i.isSoft = false := by
  cases i with
  | suspend => rfl
  | _ => cases h

/-- The passes load and store no other fields of the capture object. -/
theorem Instr.Becomes.leafField?_eq {i' : Instr} (h : i.Becomes i') :
    i'.leafField? = i.leafField? := by
  cases h <;> rfl

/-- Suspensions are what they were. -/
theorem Trims.resumptions_eq (h : Trims code code') :
    code'.filterMap Instr.resumption? = code.filterMap Instr.resumption? := by
  have hhard : ∀ c : List Instr, (c.filter fun i => !i.isSoft).filterMap Instr.resumption?
      = c.filterMap Instr.resumption? := fun c => by
    rw [List.filterMap_filter]
    refine List.filterMap_congr fun i _ => ?_
    cases hsoft : i.isSoft with
    | true => simp [Instr.resumption?_of_isSoft hsoft]
    | false => simp
  rw [← hhard code', h.filter_eq, hhard code]

/-- An instruction that is not soft comes from where it stood. -/
theorem Trims.Positions.exists_source {f : Nat → Nat}
    (h : Positions code code' f) {m : Nat} (hi : code'[m]? = some i)
    (hsoft : i.isSoft = false) : ∃ n, code[n]? = some i ∧ f n = m ∧ f (n + 1) = m + 1 := by
  obtain ⟨n, j, hj, hn, hnext, rfl | ⟨-, hbad⟩⟩ := h.source hi
  · exact ⟨n, hj, hn, hnext⟩
  · cases hsoft.symm.trans hbad

namespace Body

variable {w : Setting} {b b' : Body}

theorem leafField_of_reworked (h : b.ReworkedTo b') {P : FieldRef → Prop}
    (hP : ∀ i ∈ b.code, ∀ field, i.leafField? = some field → P field) :
    ∀ i ∈ b'.code, ∀ field, i.leafField? = some field → P field := by
  intro i' hi' field hfield
  obtain ⟨i, hi, hbecomes⟩ := exists_of_mem_sublistForall₂ h.code hi'
  exact hP i hi field (hbecomes.leafField?_eq ▸ hfield)

theorem RunsThrough.of_passes (h : b.RunsThrough w) (htrims : b.TrimsTo b')
    (hreworked : b.ReworkedTo b') : b'.RunsThrough w where
  noSuspension i hi := by
    by_contra hsuspends
    obtain ⟨p, hp⟩ := Option.ne_none_iff_exists'.1 hsuspends
    have hi' := (htrims.code.mem_iff (Instr.isSoft_of_resumption hp)).1 hi
    cases hp.symm.trans (h.noSuspension i hi')
  noDispatch i hi := by
    by_contra hdispatch
    rw [Bool.not_eq_false] at hdispatch
    have hi' := (htrims.code.mem_iff (Instr.isSoft_of_isDispatch hdispatch)).1 hi
    cases hdispatch.symm.trans (h.noDispatch i hi')
  points := hreworked.resumePoints.trans h.points
  stateFields := hreworked.stateFields.trans h.stateFields
  fields := leafField_of_reworked hreworked h.fields

theorem ResumesByTable.of_passes (h : b.ResumesByTable w) (htrims : b.TrimsTo b')
    (hreworked : b.ReworkedTo b') : b'.ResumesByTable w := by
  obtain ⟨f, hf⟩ := htrims.code.exists_positions
  have hpoints := hreworked.resumePoints
  have hfields := hreworked.stateFields
  obtain ⟨start, hstart⟩ := h.dispatch
  refine ⟨⟨start, ?_⟩, fun {m i} hi hdispatch => ?_, fun hp => ?_, ?_, fun {m i p} hi hp => ?_,
    fun i hi route hroute => ?_, leafField_of_reworked hreworked ?_, hfields ▸ h.nodup⟩
  · have hkept := (hf.keeps hstart rfl).1
    rw [hf.zero] at hkept
    rw [hpoints]
    exact hkept
  · obtain ⟨n, hn, hfn, -⟩ := hf.exists_source hi (Instr.isSoft_of_isDispatch hdispatch)
    rw [← hfn, h.first hn hdispatch, hf.zero]
  · exact h.numbered (hpoints ▸ hp)
  · rw [htrims.code.resumptions_eq, hpoints]
    exact h.resumptions
  · obtain ⟨n, hn, -, hnext⟩ := hf.exists_source hi (Instr.isSoft_of_resumption hp)
    rw [← hnext]
    exact (hf.keeps (h.followed hn hp) rfl).1
  · rw [hpoints, hfields]
    exact h.rejects i ((htrims.code.mem_iff (Instr.isSoft_of_reject hroute)).1 hi) route hroute
  · intro i hi field hfield
    unfold Lists
    rw [hfields]
    exact h.fields i hi field hfield

end Body

/-- The resume table of a compiled body is exact. A function that runs in one piece has none: no
suspension, no dispatch, no resume point and no state field. The body of a resumable function starts
with the only dispatch, which leads to all resume points. Their states count from one. Suspensions
and resume points for values correspond in order, with state, label, result and kind, and each
suspension is followed by the label where it goes on. Rejections go on at resume points for
rejections. Every field of the capture object that is not the home of a binding is listed, and none
is listed twice. -/
theorem Function.compile_resumeTable {f : Function} {tree : ScopeTree} {registry : Registry}
    {options : Options} {body : Body} (h : (f.compile tree registry options).result = .ok body) :
    ∃ scope, tree.scope? f.scope = some scope ∧
      (f.isResumable = false → body.RunsThrough ⟨f, tree, registry, scope.name⟩) ∧
      (f.isResumable = true → body.ResumesByTable ⟨f, tree, registry, scope.name⟩) := by
  obtain ⟨scope, entry, s, hscope, rfl, hcourse⟩ := exists_compiled h
  have htrims := (s.toBody f).optimize_trims registry options
  obtain ⟨-, hreworked⟩ := (s.toBody f).optimize_tends registry options (hcourse.consistent f)
  refine ⟨scope, hscope, fun hplain => ?_, fun hres => ?_⟩
  · exact (hcourse.runsThrough hplain).of_passes htrims hreworked
  · exact (hcourse.resumesByTable hres).of_passes htrims hreworked

theorem compile_resumeTable_awaitInFinally :
    awaitInFinally.compiledAlone.resumePoints.length = 4 ∧
      ∃ scope : Scope, awaitInFinally.compiledAlone.ResumesByTable
        ⟨awaitInFinally, .ofModule "m", {}, scope.name⟩ := by
  have h : (awaitInFinally.compile (.ofModule "m") {} {}).result
      = .ok awaitInFinally.compiledAlone := by
    decide +kernel
  obtain ⟨scope, -, -, htable⟩ := Function.compile_resumeTable h
  exact ⟨by decide +kernel, scope, htable rfl⟩

end ScriptLowering
