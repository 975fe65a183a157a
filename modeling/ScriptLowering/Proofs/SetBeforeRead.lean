import ScriptLowering.Proofs.Path

/-!
# Nothing is read before it is set

Three readings of one certificate, which differ in the cells that a suspension is taken to keep.

* In a function that runs in one piece, whatever way leads to an instruction that reads a temp, the
  temp was defined on it.
* In any function, a slot that belongs to no binding was stored on every way that leads to a load of
  it, from the entry or from a resume point.
* In a resumable function whose parts are durable, no temp has to survive a suspension: on every way
  from a resume point to an instruction that reads a temp, the temp is defined behind that point.

An array literal may start with holes, or with a spread, and an object literal with a computed
member or a spread. What is created in front of their first operand is held in a temp while the
operand is evaluated, and nothing declines an operand that suspends there. `Occurrence.durable`
leaves these forms out; `Function.lower_loses_temp` shows that it has to.

## Main results

* `Function.lower_sets_before_reads`, `Function.lower_defines_behind_resumption`.
-/

namespace ScriptLowering

/-- What is lowered successfully comes from a session that is finished. -/
theorem Function.exists_session {f : Function} {tree : ScopeTree} {registry : Registry}
    {options : Options} {body : Body} (h : (f.lower tree registry options).result = .ok body) :
    ∃ ctx s u, Context.ofFunction? tree registry options f = some ctx ∧ ctx.function = f ∧
      Lower.wholeFunction ctx {} = .ok u s ∧ body = s.toBody f := by
  unfold Function.lower at h
  split at h
  · cases h
  · rename_i ctx hctx
    have hfunction := (ready_outermost (U := ∅) hctx).2.2
    split at h
    · rename_i u s hrun
      cases h
      exact ⟨ctx, s, u, hctx, hfunction, hrun, rfl⟩
    · cases h

/-- Every part of a function is accepted if what it holds across a suspension is kept. -/
theorem Function.accepted {f : Function} {ctx : Context} {U : Set Cell} (hctx : ctx.function = f)
    (hdurable : f.isResumable = true → (∀ x ∈ f.occurrences, x.durable = true) ∨ ∀ t, .temp t ∈ U) :
    ∀ x ∈ f.occurrences, x.Accepted U ctx := by
  subst hctx
  exact fun x hx hres => (hdurable hres).imp_left fun h => h x hx

/-- Every slot. -/
def allSlots : Set Cell :=
  {c | ∃ slot, c = .slot slot}

/-- Every temp, and every slot that belongs to a binding. -/
def tempsAndVariables (b : Body) : Set Cell :=
  {c | (∃ t, c = .temp t) ∨
    ∃ slot info, c = .slot slot ∧ b.slots[slot.index]? = some info ∧ info.isAnonymous = false}

theorem exempts_allSlots (s : Session) : s.Exempts allSlots :=
  fun slot _ _ _ => ⟨slot, rfl⟩

theorem exempts_tempsAndVariables (s : Session) (f : Function) :
    s.Exempts (tempsAndVariables (s.toBody f)) := by
  intro slot e he hnamed
  refine .inr ⟨slot, e.info, rfl, ?_, ?_⟩
  · simp [Session.toBody, he]
  · simpa [SlotInfo.isAnonymous] using hnamed

theorem Instr.result?_of_writes {i : Instr} {t : Temp} (h : .temp t ∈ i.writes) :
    ∃ op, i = .define t op := by
  unfold writes at h
  split at h
  · obtain rfl : _ = _ := by simpa using h
    exact ⟨_, rfl⟩
  all_goals simp at h

theorem Instr.eq_store_of_writes {i : Instr} {slot : Slot} (h : .slot slot ∈ i.writes) :
    ∃ value, i = .perform (.storeSlot slot value) := by
  unfold writes at h
  split at h
  · simp at h
  · obtain rfl : _ = _ := by simpa using h
    exact ⟨_, rfl⟩
  · simp at h

theorem Instr.temp_mem_reads {i : Instr} {t : Temp} (h : t ∈ i.uses) : .temp t ∈ i.reads := by
  cases i with
  | define result op =>
    cases op <;> simp_all [uses, reads, Operation.reads, Operation.uses]
  | _ => exact List.mem_map_of_mem h

variable {f : Function} {tree : ScopeTree} {registry : Registry} {options : Options} {body : Body}

/-- Every way to a load of a slot without a binding passes a store into the slot. -/
theorem Function.passes_store (h : (f.lower tree registry options).result = .ok body)
    {start n : Nat} {passed : List Nat} {result : Temp} {slot : Slot} {info : SlotInfo}
    (hstart : start = 0 ∨ body.ResumesAt start) (hpath : body.Path start n passed)
    (hi : body.code[n]? = some (.define result (.loadSlot slot))) (hinfo : body.slot? slot = some info)
    (hanonymous : info.isAnonymous = true) :
    ∃ k ∈ passed, ∃ value, body.code[k]? = some (.perform (.storeSlot slot value)) := by
  obtain ⟨ctx, s, u, hctx, rfl, hrun, rfl⟩ := exists_session h
  obtain ⟨o, hfin⟩ := Lower.wholeFunction_finished
    (U := tempsAndVariables (s.toBody ctx.function)) hctx
    (Function.accepted rfl fun _ => .inr fun t => .inl ⟨t, rfl⟩) hrun
  have hreads : Cell.slot slot ∈ (Instr.define result (.loadSlot slot)).reads := by
    simp [Instr.reads, Operation.reads]
  rcases hfin.path_reads (exempts_tempsAndVariables s ctx.function) hstart hpath hi hreads
    with hexempt | ⟨k, hk, ⟨j, hj, hwrites⟩ | ⟨p, -, -, t, -, hcell⟩⟩
  · rcases hexempt with ⟨t, ht⟩ | ⟨slot', info', hslot, hinfo', hnamed⟩
    · cases ht
    · cases hslot
      obtain rfl : info' = info := Option.some.inj (hinfo'.symm.trans hinfo)
      simp [hanonymous] at hnamed
  · obtain ⟨value, rfl⟩ := Instr.eq_store_of_writes hwrites
    exact ⟨k, hk, value, hj⟩
  · cases hcell

/-- Nothing is read before it is set. In a function that runs in one piece, every way from the entry
to an instruction that reads a temp passes the definition of the temp. In any function, every way
from the entry or from a resume point to a load of a slot without a binding passes a store into the
slot. -/
theorem Function.lower_sets_before_reads (h : (f.lower tree registry options).result = .ok body) :
    (f.isResumable = false → ∀ {n : Nat} {passed : List Nat} {i : Instr} {t : Temp},
      body.Path 0 n passed → body.code[n]? = some i → t ∈ i.uses →
      ∃ k ∈ passed, ∃ j, body.code[k]? = some j ∧ j.result? = some t) ∧
    ∀ {start n : Nat} {passed : List Nat} {result : Temp} {slot : Slot} {info : SlotInfo},
      start = 0 ∨ body.ResumesAt start → body.Path start n passed →
      body.code[n]? = some (.define result (.loadSlot slot)) → body.slot? slot = some info →
      info.isAnonymous = true →
      ∃ k ∈ passed, ∃ value, body.code[k]? = some (.perform (.storeSlot slot value)) := by
  refine ⟨fun hplain n passed i t hpath hi ht => ?_, passes_store h⟩
  obtain ⟨ctx, s, u, hctx, rfl, hrun, rfl⟩ := exists_session h
  obtain ⟨o, hfin⟩ := Lower.wholeFunction_finished (U := allSlots) hctx
    (Function.accepted rfl (by simp [hplain])) hrun
  rcases hfin.path_reads (exempts_allSlots s) (.inl rfl) hpath hi (Instr.temp_mem_reads ht)
    with ⟨slot, hslot⟩ | ⟨k, hk, ⟨j, hj, hwrites⟩ | ⟨p, hp, -, -⟩⟩
  · cases hslot
  · obtain ⟨op, rfl⟩ := Instr.result?_of_writes hwrites
    exact ⟨k, hk, _, hj, rfl⟩
  · -- there are no resume points
    have hp : p ∈ o.points := hfin.points ▸ hp
    have hres : ctx.function.isResumable = true := hfin.legal.point hp
    simp [hplain] at hres

/-- `return true ? 1 : 2;` -/
def choice : Function where
  name := "choice"
  kind := .function
  scope := ScopeTree.global
  body := [.ret (some (.conditional (.bool true) (.number (.ofNat 1)) (.number (.ofNat 2))))]

/-- What becomes of a function in a module without declarations. -/
def Function.loweredAlone (f : Function) : Body :=
  match (f.lower (.ofModule "m") {} {}).result with
  | .ok body => body
  | .error _ => default

/-- The way through the first branch of the choice, to the load of the carrier. -/
theorem choice_path : choice.loweredAlone.Path 0 11 [10, 5, 4, 3, 2, 1, 0] := by
  have next : ∀ {n passed} (i : Instr), choice.loweredAlone.Path 0 n passed →
      choice.loweredAlone.code[n]? = some i → i.fallsThrough = true →
      choice.loweredAlone.Path 0 (n + 1) (n :: passed) :=
    fun i hpath hi hfalls => .step hpath (.next hi hfalls)
  have h₅ : choice.loweredAlone.Path 0 5 [4, 3, 2, 1, 0] :=
    next (.perform (.storeSlot ⟨0⟩ ⟨2⟩)) (next (.define ⟨2⟩ (.coerce .toObject ⟨1⟩))
      (next (.define ⟨1⟩ (.literal (.number (.ofNat 1)))) (next (.branchIf false ⟨0⟩ ⟨0⟩)
        (next (.define ⟨0⟩ (.literal (.bool true))) .here (by decide +kernel) rfl)
          (by decide +kernel) rfl) (by decide +kernel) rfl) (by decide +kernel) rfl)
      (by decide +kernel) rfl
  have h₁₀ : choice.loweredAlone.Path 0 10 [5, 4, 3, 2, 1, 0] :=
    .step h₅ (.jump (i := .branch ⟨1⟩) (by decide +kernel) rfl
      (show choice.loweredAlone.code[10]? = some (.label ⟨1⟩) by decide +kernel))
  exact next (.label ⟨1⟩) h₁₀ (by decide +kernel) rfl

theorem lower_sets_before_reads_choice :
    (∃ k ∈ [11, 10, 5, 4, 3, 2, 1, 0], ∃ j,
      choice.loweredAlone.code[k]? = some j ∧ j.result? = some ⟨5⟩) ∧
    ∃ k ∈ [10, 5, 4, 3, 2, 1, 0], ∃ value,
      choice.loweredAlone.code[k]? = some (.perform (.storeSlot ⟨0⟩ value)) := by
  have h : (choice.lower (.ofModule "m") {} {}).result = .ok choice.loweredAlone := by
    decide +kernel
  have hload : choice.loweredAlone.code[11]? = some (.define ⟨5⟩ (.loadSlot ⟨0⟩)) := by
    decide +kernel
  obtain ⟨htemps, hslots⟩ := Function.lower_sets_before_reads h
  exact ⟨htemps rfl (.step choice_path (.next hload rfl))
      (show _ = some (.ret ⟨5⟩) by decide +kernel) (by decide),
    hslots (.inl rfl) choice_path hload
      (show _ = some { name := "$conditional", storage := .object, binding := none } by
        decide +kernel) rfl⟩

/-- No temp has to survive a suspension, if the parts of the function are durable. On every way from
a resume point to an instruction that reads a temp, the temp is defined, by an instruction or by the
re-entry at a resume point on the way. -/
theorem Function.lower_defines_behind_resumption
    (h : (f.lower tree registry options).result = .ok body)
    (hdurable : ∀ x ∈ f.occurrences, x.durable = true) {start n : Nat} {passed : List Nat}
    {i : Instr} {t : Temp} (hstart : body.ResumesAt start) (hpath : body.Path start n passed)
    (hi : body.code[n]? = some i) (ht : t ∈ i.uses) :
    ∃ k ∈ passed, (∃ op, body.code[k]? = some (.define t op)) ∨
      ∃ p ∈ body.resumePoints, p.result = some t ∧ body.Placed p.label k := by
  obtain ⟨ctx, s, u, hctx, rfl, hrun, rfl⟩ := exists_session h
  obtain ⟨o, hfin⟩ := Lower.wholeFunction_finished (U := allSlots) hctx
    (Function.accepted rfl fun _ => .inl hdurable) hrun
  rcases hfin.path_reads (exempts_allSlots s) (.inr hstart) hpath hi (Instr.temp_mem_reads ht)
    with ⟨slot, hslot⟩ | ⟨k, hk, ⟨j, hj, hwrites⟩ | ⟨p, hp, hplaced, t', ht', hcell⟩⟩
  · cases hslot
  · obtain ⟨op, rfl⟩ := Instr.result?_of_writes hwrites
    exact ⟨k, hk, .inl ⟨op, hj⟩⟩
  · cases hcell
    exact ⟨k, hk, .inr ⟨p, hp, ht', hplaced⟩⟩

/-- `return [await 1, 2];` in an async function. -/
def awaitedItem : Function where
  name := "awaitedItem"
  kind := .function
  scope := ScopeTree.global
  body := [.ret (some (.array [.item (.await (.number (.ofNat 1))), .item (.number (.ofNat 2))]))]
  isAsync := true

/-- The array is built from the value that the driver sends. -/
theorem lower_defines_behind_resumption_awaitedItem :
    ∃ k ∈ [12, 11, 10], (∃ op, awaitedItem.loweredAlone.code[k]? = some (.define ⟨4⟩ op)) ∨
      ∃ p ∈ awaitedItem.loweredAlone.resumePoints, p.result = some ⟨4⟩ ∧
        awaitedItem.loweredAlone.Placed p.label k := by
  have h : (awaitedItem.lower (.ofModule "m") {} {}).result = .ok awaitedItem.loweredAlone := by
    decide +kernel
  have hstart : awaitedItem.loweredAlone.ResumesAt 10 :=
    ⟨⟨1, ⟨2⟩, some ⟨4⟩, .await⟩, by decide +kernel,
      show awaitedItem.loweredAlone.code[10]? = some (.label ⟨2⟩) by decide +kernel⟩
  have hpath : awaitedItem.loweredAlone.Path 10 13 [12, 11, 10] := by
    refine .step (.step (.step .here (.next (i := .label ⟨2⟩) ?_ rfl))
      (.next (i := .define ⟨5⟩ (.literal (.number (.ofNat 2)))) ?_ rfl))
      (.next (i := .define ⟨6⟩ (.coerce .toObject ⟨5⟩)) ?_ rfl)
    all_goals decide +kernel
  exact Function.lower_defines_behind_resumption h (by decide) hstart hpath
    (show _ = some (.define ⟨7⟩ (.newArray [⟨4⟩, ⟨6⟩])) by decide +kernel) (by decide)

/-- `return [, await 1];` in an async function. -/
def holeThenAwait : Function where
  name := "holeThenAwait"
  kind := .function
  scope := ScopeTree.global
  body := [.ret (some (.array [.hole, .item (.await (.number (.ofNat 1)))]))]
  isAsync := true

/-- The value of a hole in front of an item that suspends is held in a temp, which is lost: the way
from the resume point to the construction of the array defines it nowhere. -/
theorem Function.lower_loses_temp :
    (holeThenAwait.lower (.ofModule "m") {} {}).result = .ok holeThenAwait.loweredAlone ∧
    holeThenAwait.loweredAlone.ResumesAt 11 ∧ holeThenAwait.loweredAlone.Path 11 12 [11] ∧
    (∃ i, holeThenAwait.loweredAlone.code[12]? = some i ∧ ⟨2⟩ ∈ i.uses) ∧
    ∀ k ∈ [11], (∀ op, holeThenAwait.loweredAlone.code[k]? ≠ some (.define ⟨2⟩ op)) ∧
      ∀ p ∈ holeThenAwait.loweredAlone.resumePoints, p.result = some ⟨2⟩ →
        ¬ holeThenAwait.loweredAlone.Placed p.label k := by
  have hlabel : holeThenAwait.loweredAlone.code[11]? = some (.label ⟨2⟩) := by decide +kernel
  have hpoints : holeThenAwait.loweredAlone.resumePoints = [⟨1, ⟨2⟩, some ⟨5⟩, .await⟩] := by
    decide +kernel
  refine ⟨by decide +kernel, ⟨⟨1, ⟨2⟩, some ⟨5⟩, .await⟩, by simp [hpoints], hlabel⟩,
    .step .here (.next hlabel rfl),
    ⟨.define ⟨6⟩ (.newArray [⟨2⟩, ⟨5⟩]), by decide +kernel, by decide⟩, ?_⟩
  simp [hlabel, hpoints]

end ScriptLowering
