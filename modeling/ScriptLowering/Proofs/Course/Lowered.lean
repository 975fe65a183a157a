import ScriptLowering.Proofs.Course.Recursion
import ScriptLowering.Proofs.WellFormed
import ScriptLowering.Proofs.WriteOnce

/-!
# What the lowering produces

A lowered body comes from a session that a sequence of steps led to (`Function.exists_course`), so
what the steps preserve holds of it. Two invariants are about all instructions: they are well typed,
and the count that a slot carries is the number of its stores.

Fusing an addition changes the storage of its result. This is harmless because the addition is the
last instruction: nothing else can have read its result (`Session.Typed.last`).
-/

namespace ScriptLowering

variable {body : Body} {f : Function} {options : Options} {registry : Registry} {tree : ScopeTree}

namespace Session

variable {w : Setting} {s s' : Session}
variable {i : Instr} {left right value : Temp}

/-- Only the last instruction changes when an addition is fused. -/
theorem exists_front_of_fuse (h : Lower.justAdded? s value = some (left, right)) :
    ∃ front : Array Instr, s.code = front.push (.define value (.add left right)) ∧
      (Lower.fuseAddition value left right s).code
        = front.push (.define value (.addToNumber left right)) := by
  obtain ⟨front, hfront⟩ := Array.back?_eq_some_iff.1 (back_of_justAdded h)
  exact ⟨front, hfront, by simp [Lower.fuseAddition, hfront]⟩

/-- What holds of the instructions so far and of every instruction that a step can add holds of all
instructions behind the step. -/
theorem Step.forall_code {P : Instr → Prop} (hstep : Step w s s') (hold : ∀ i ∈ s.code, P i)
    (hemit : ∀ i, i.Founded w s → P i) (hstore : ∀ slot value, P (.perform (.storeSlot slot value)))
    (hsuspend : ∀ kind value state label result reject, (∀ route, reject = some route →
      s.Holds w (.point route.state) ∧ s.Holds w (.field route.pending)) →
      P (.suspend kind value state label result reject))
    (henter : ∀ start, P (.dispatch [] start)) : ∀ i ∈ s'.code, P i := by
  have hpush : ∀ {code : Array Instr} {i : Instr}, (∀ j ∈ code, P j) → P i → ∀ j ∈ code.push i, P j := by
    intro code i hcode hi j hj
    rcases Array.mem_push.1 hj with hj | rfl
    · exact hcode j hj
    · exact hi
  cases hstep with
  | aside hsame =>
    intro i hi
    exact hold i (hsame.code ▸ hi)
  | emit hi => exact hpush hold (hemit _ hi.founded)
  | fuse hadded =>
    obtain ⟨front, hcode, hfused⟩ := exists_front_of_fuse hadded
    rw [hcode] at hold
    rw [hfused]
    exact hpush (fun i hi => hold i (Array.mem_push_of_mem _ hi)) (hemit _ trivial)
  | store => exact hpush hold (hstore _ _)
  | suspend hres hvalue hidle hne hreject =>
    exact hpush (hpush hold (hsuspend _ _ _ _ _ _ hreject)) (hemit _ trivial)
  | enter =>
    intro i hi
    obtain rfl := Array.mem_singleton.1 hi
    exact henter _
  | _ => exact hold

/-! ### Types -/

/-- Every instruction is well typed, and the result of the last one is new. -/
structure Typed (s : Session) : Prop where
  code : ∀ i ∈ s.code, i.WellTyped s.layout
  last : ∀ {front : Array Instr} {i : Instr} {t : Temp}, s.code = front.push i →
    i.result? = some t → t ∉ i.uses ∧ ∀ j ∈ front, t ∉ j.uses ∧ j.result? ≠ some t

theorem typed_empty : ({} : Session).Typed :=
  ⟨by simp, by simp⟩

theorem Typed.of_same (h : s.Typed) (hext : s.Extends s.temps.size s') (hcode : s'.code = s.code) :
    s'.Typed where
  code i hi := hext.wellTyped (h.code i (hcode ▸ hi))
  last hlast := h.last (hcode ▸ hlast)

theorem Typed.push (h : s.Typed) (hext : s.Extends s.temps.size s')
    (hcode : s'.code = s.code.push i) (hi : i.WellTyped s'.layout)
    (hresult : ∀ t, i.result? = some t → s.Idle t ∧ t ∉ i.uses) : s'.Typed where
  code j hj := by
    rcases Array.mem_push.1 (hcode ▸ hj) with hj | rfl
    · exact hext.wellTyped (h.code j hj)
    · exact hi
  last {front j t} hlast ht := by
    obtain ⟨rfl, rfl⟩ := Array.push_eq_push.1 (hcode.symm.trans hlast)
    exact ⟨(hresult t ht).2, (hresult t ht).1.2⟩

/-- Fusing the last addition affects nothing else. -/
theorem Typed.fuse (h : s.Typed) (hadded : Lower.justAdded? s value = some (left, right)) :
    (Lower.fuseAddition value left right s).Typed := by
  obtain ⟨front, hcode, hfused⟩ := exists_front_of_fuse hadded
  obtain ⟨hself, hothers⟩ := h.last hcode rfl
  have htemp : ∀ t, t ≠ value →
      (Lower.fuseAddition value left right s).layout.temp t = s.layout.temp t := by
    intro t hne
    exact Array.getElem?_setIfInBounds_ne fun heq => hne (congrArg Temp.mk heq.symm)
  have hmem : ∀ j ∈ s.code, j.WellTyped s.layout := h.code
  rw [hcode] at hmem
  refine ⟨fun i hi => ?_, fun {front' i t} hlast ht => ?_⟩
  · rcases Array.mem_push.1 (hfused ▸ hi) with hfront | rfl
    · obtain ⟨hunread, hundefined⟩ := hothers i hfront
      refine (hmem i (Array.mem_push_of_mem _ hfront)).congr (fun t storage ht hstorage => ?_) fun _ _ => id
      rw [htemp t fun heq => ht.elim (heq ▸ hunread) (heq ▸ hundefined)]
      exact hstorage
    · have hadd := hmem _ Array.mem_push_self
      refine ⟨fun d hd => ?_, trivial⟩
      obtain ⟨storage, hstorage, hshape⟩ := hadd.operands d hd
      refine ⟨storage, ?_, hshape⟩
      rw [htemp d.1 fun heq => hself (heq ▸ Instr.mem_uses_of_demand hd)]
      exact hstorage
  · obtain ⟨rfl, rfl⟩ := Array.push_eq_push.1 (hfused.symm.trans hlast)
    cases ht
    exact ⟨hself, hothers⟩

/-- Steps keep the code well typed. -/
theorem Step.typed (h : s.Typed) (hstep : Step w s s') : s'.Typed := by
  cases hstep with
  | aside hsame => exact h.of_same (.of_same hsame.temps hsame.slots hsame.fields hsame.points) hsame.code
  | allocate => exact h.of_same (extends_allocate _) rfl
  | emit hi => exact h.push (.of_same rfl rfl rfl rfl) rfl hi.typed hi.idle
  | fuse hadded => exact h.fuse hadded
  | freshSlot => exact h.of_same (extends_addSlot _) rfl
  | store hstore =>
    refine h.push (extends_store _ _) rfl ?_ nofun
    rw [layout_store]
    exact hstore
  | stateField => exact h.of_same (extends_stateField _) rfl
  | home => exact h.of_same (.of_same rfl rfl rfl rfl) rfl
  | sharedExit => exact h.of_same (.of_same rfl rfl rfl rfl) rfl
  | @suspend kind value result label reject hres hvalue hidle hne =>
    have hfirst : Typed { s with
        code := s.code.push (.suspend kind value (s.resumePoints.size + 1) label result reject) } := by
      refine h.push (.of_same rfl rfl rfl rfl) rfl ⟨fun d hd => ?_, trivial⟩ fun t ht => ?_
      · obtain rfl := List.mem_singleton.1 hd
        exact hvalue
      · cases ht
        exact ⟨hidle, fun huse => hne (List.mem_singleton.1 huse)⟩
    exact hfirst.push ⟨.inl, id, id, fun hp => Array.mem_push_of_mem _ hp⟩ rfl ⟨nofun, trivial⟩ nofun
  | rejectPoint => exact h.of_same (extends_addReject _) rfl
  | @enter start =>
    refine ⟨fun i hi => ?_, fun {front i t} hlast ht => ?_⟩
    · obtain rfl := Array.mem_singleton.1 hi
      exact ⟨nofun, trivial⟩
    · have hsingle : front.push i = #[].push (.dispatch [] start) := hlast.symm
      obtain ⟨rfl, -⟩ := Array.push_eq_push.1 hsingle
      cases ht

/-! ### Stores -/

/-- Every slot knows how often it is stored. -/
def Counted (s : Session) : Prop :=
  ∀ slot : Slot, ((s.slots[slot.index]?).map (·.stores)).getD 0
    = (slotAccesses s.code.toList).count (true, slot)

theorem Counted.of_accesses (h : s.Counted) (hslots : s'.slots = s.slots)
    (haccesses : ∀ slot, (slotAccesses s'.code.toList).count (true, slot)
      = (slotAccesses s.code.toList).count (true, slot)) : s'.Counted := by
  intro slot
  rw [hslots, haccesses]
  exact h slot

theorem count_slotAccesses_push (code : Array Instr) (i : Instr) (slot : Slot) :
    (slotAccesses (code.push i).toList).count (true, slot)
      = (slotAccesses code.toList).count (true, slot) + if i.slotAccess? = some (true, slot) then 1 else 0 := by
  rw [slotAccesses, Array.toList_push, List.filterMap_append, List.count_append, slotAccesses]
  congr 1
  cases h : i.slotAccess? <;> simp [h, List.count_singleton]

/-- Stores are steps of their own. -/
theorem ne_store_of_backed (h : i.Backed w s) (slot : Slot) :
    i.slotAccess? ≠ some (true, slot) := by
  intro haccess
  unfold Instr.slotAccess? at haccess
  split at haccess
  · simp at haccess
  · exact h.founded
  · cases haccess

/-- Steps keep count of stores. -/
theorem Step.counted (h : s.Counted) (hstep : Step w s s') : s'.Counted := by
  cases hstep with
  | aside hsame => exact h.of_accesses hsame.slots fun slot => by rw [hsame.code]
  | emit hi =>
    refine h.of_accesses rfl fun slot => ?_
    rw [count_slotAccesses_push, if_neg (ne_store_of_backed hi slot), Nat.add_zero]
  | fuse hadded =>
    obtain ⟨front, hcode, hfused⟩ := exists_front_of_fuse hadded
    refine h.of_accesses rfl fun slot => ?_
    rw [hfused, hcode, count_slotAccesses_push, count_slotAccesses_push]
    rfl
  | freshSlot =>
    intro slot
    refine Eq.trans ?_ (h slot)
    rw [addSlot, Array.getElem?_push]
    split
    · rename_i heq
      rw [heq, Array.getElem?_eq_none le_rfl]
      rfl
    · rfl
  | @store slot' value hstore =>
    intro slot
    obtain ⟨held, -, hheld, -⟩ := hstore.storage
    obtain ⟨e, he, -⟩ := Option.map_eq_some_iff.1 hheld
    have hcount : (slotAccesses (s.store slot' value).code.toList).count (true, slot)
        = (slotAccesses s.code.toList).count (true, slot) + if slot' = slot then 1 else 0 := by
      rw [Session.store, count_slotAccesses_push]
      simp [Instr.slotAccess?]
    rw [hcount, ← h slot, Session.store, Array.getElem?_modify]
    by_cases heq : slot' = slot
    · subst heq
      simp [he]
    · have hindex : slot'.index ≠ slot.index := fun hindex => heq (congrArg Slot.mk hindex)
      simp [heq, hindex]
  | suspend =>
    refine h.of_accesses rfl fun slot => ?_
    rw [Session.suspend, count_slotAccesses_push, count_slotAccesses_push]
    simp [Instr.slotAccess?]
  | enter hres hcode =>
    refine h.of_accesses rfl fun slot => ?_
    rw [hcode]
    rfl
  | _ => exact h.of_accesses rfl fun slot => rfl

theorem counted_empty : ({} : Session).Counted :=
  fun _ => rfl

theorem mem_singleAssignment {slot : Slot} :
    slot ∈ s.singleAssignment ↔ (s.slots[slot.index]?).map (·.stores) = some 1 := by
  simp only [singleAssignment, List.mem_filterMap, Prod.exists, List.mem_zipIdx_iff_getElem?,
    Array.getElem?_toList, Option.map_eq_some_iff]
  constructor
  · rintro ⟨e, k, he, hslot⟩
    split at hslot
    · cases hslot
      exact ⟨e, he, ‹_›⟩
    · cases hslot
  · rintro ⟨e, he, hstores⟩
    exact ⟨e, slot.index, he, by rw [if_pos hstores]⟩

/-! ### The body of a session -/

/-- The table of the dispatch is all that is filled in. -/
theorem mem_toBody {f : Function} (hi : i ∈ (s.toBody f).code) :
    i ∈ s.code ∨ ∃ targets start, i = .dispatch targets start := by
  unfold toBody fillDispatch at hi
  dsimp only at hi
  split at hi
  · split at hi
    · rename_i targets start rest hcode
      rcases List.mem_cons.1 hi with rfl | hi
      · exact .inr ⟨_, _, rfl⟩
      · exact .inl (Array.mem_toList_iff.1 (hcode ▸ .tail _ hi))
    · exact .inl (Array.mem_toList_iff.1 hi)
  · exact .inl (Array.mem_toList_iff.1 hi)

theorem slotAccesses_toBody (f : Function) :
    slotAccesses (s.toBody f).code = slotAccesses s.code.toList := by
  unfold toBody fillDispatch
  dsimp only
  split
  · split
    · rename_i hcode
      rw [hcode]
      rfl
    · rfl
  · rfl

theorem layout_toBody (f : Function) : (s.toBody f).layout = s.layout := by
  have htemp : ∀ k : Nat, ((s.temps.map some)[k]?).join = s.temps[k]? := fun k => by
    rw [Array.getElem?_map]
    cases s.temps[k]? <;> rfl
  have hslot : ∀ k : Nat, ((s.slots.map (·.info))[k]?).map SlotInfo.storage
      = (s.slots[k]?).map (·.info.storage) := fun k => by
    rw [Array.getElem?_map, Option.map_map]
    rfl
  exact congr (congrArg Layout.mk (funext fun t => htemp t.index)) (funext fun slot => hslot slot.index)

theorem Typed.wellTyped (h : s.Typed) (f : Function) : (s.toBody f).WellTyped := by
  intro i hi
  rw [layout_toBody]
  rcases mem_toBody hi with hi | ⟨targets, start, rfl⟩
  · exact h.code i hi
  · exact ⟨nofun, trivial⟩

theorem lt_size_of_slotAccess {access : Bool × Slot} (h : i.WellTyped s.layout)
    (haccess : i.slotAccess? = some access) : access.2.index < s.slots.size := by
  have hlt : ∀ {slot storage}, s.layout.slot slot = some storage → slot.index < s.slots.size := by
    intro slot storage hslot
    obtain ⟨e, he, -⟩ := Option.map_eq_some_iff.1 hslot
    exact (Array.getElem?_eq_some_iff.1 he).1
  have hfits := h.storage
  unfold Instr.slotAccess? at haccess
  split at haccess
  · cases haccess
    obtain ⟨storage, hheld, -⟩ := hfits
    exact hlt hheld
  · cases haccess
    obtain ⟨held, -, hheld, -⟩ := hfits
    exact hlt hheld
  · cases haccess

/-- The temps and slots of a finished session are in order. -/
theorem consistent_toBody (f : Function) (hsound : s.Sound w) (htyped : s.Typed)
    (hcounted : s.Counted) (htidy : s.Tidy []) : (s.toBody f).Consistent := by
  have hsize : (s.toBody f).slots.size = s.slots.size := by simp [toBody]
  have htemps := (htidy.writeOnce f).defined
  refine ⟨?_, ?_, fun access haccess => ?_, fun e he => ?_, fun slot hslot => ?_, fun slot => ?_⟩
  · refine (List.Perm.nodup_iff htemps).2 (List.nodup_range.map fun a b h => ?_)
    exact congrArg Temp.index h
  · unfold toBody
    dsimp only
    split
    · exact (fillDispatch_temps _ _).2 htidy.uses
    · exact htidy.uses
  · rw [slotAccesses_toBody] at haccess
    obtain ⟨i, hi, haccess⟩ := List.mem_filterMap.1 haccess
    rw [hsize]
    exact lt_size_of_slotAccess (htyped.code i (Array.mem_toList_iff.1 hi)) haccess
  · obtain ⟨entry, hentry, -⟩ := Option.map_eq_some_iff.1 (hsound.exit e he)
    rw [hsize]
    exact (Array.getElem?_eq_some_iff.1 hentry).1
  · obtain ⟨entry, hentry, -⟩ := Option.map_eq_some_iff.1 (mem_singleAssignment.1 hslot)
    rw [hsize]
    exact (Array.getElem?_eq_some_iff.1 hentry).1
  · rw [Body.storeCount, slotAccesses_toBody, ← hcounted slot]
    refine mem_singleAssignment.trans ?_
    cases (s.slots[slot.index]?).map (·.stores) <;> simp

end Session

/-! ### Lowered bodies -/

/-- The session at the end of the lowering of a function, and the one at its entry. -/
structure Course (w : Setting) (entry s : Session) : Prop where
  first : ({} : Session).Leads w 0 entry
  rest : entry.Leads w 0 s
  dispatch : w.function.isResumable = true → ∃ start, entry.code = #[.dispatch [] start]
  tidy : s.Tidy []

namespace Course

variable {w : Setting} {entry s : Session}

/-- What every step preserves holds in the end. -/
theorem invariant (h : Course w entry s) {P : Session → Prop} (hP : P {})
    (hstep : ∀ {s s' : Session}, s.Sound w → P s → Session.Step w s s' → P s') : P s :=
  (h.first.trans h.rest).invariant (Session.sound_empty w) hP hstep

theorem sound (h : Course w entry s) : s.Sound w :=
  (h.first.trans h.rest).sound (Session.sound_empty w)

theorem typed (h : Course w entry s) : s.Typed :=
  h.invariant Session.typed_empty fun _ htyped hstep => hstep.typed htyped

theorem counted (h : Course w entry s) : s.Counted :=
  h.invariant Session.counted_empty fun _ hcounted hstep => hstep.counted hcounted

theorem consistent (h : Course w entry s) (f : Function) : (s.toBody f).Consistent :=
  Session.consistent_toBody f h.sound h.typed h.counted h.tidy

end Course

/-- The lowering of a function is a course. -/
theorem Course.of_run
    {ctx : Context} {s : Session} {u : Unit} (hctx : Context.ofFunction? tree registry options f = some ctx)
    (hrun : Lower.wholeFunction ctx {} = .ok u s) :
    ∃ scope entry, tree.scope? f.scope = some scope ∧ Course ⟨f, tree, registry, scope.name⟩ entry s := by
  obtain ⟨entry, hfirst, hrest, hdispatch⟩ := Lower.wholeFunction_leads (Lower.ready_empty hctx) hrun
  have htidy := Lower.wholeFunction_tidy hrun
  obtain ⟨scope, hscope, hsetting, -, -⟩ := Lower.exists_setting hctx
  refine ⟨scope, entry, hscope, ?_⟩
  rw [← hsetting]
  exact ⟨hfirst, hrest, hdispatch, htidy⟩

/-- A lowered body is where a course ends. -/
theorem Function.exists_course (h : (f.lower tree registry options).result = .ok body) :
    ∃ scope entry s, tree.scope? f.scope = some scope ∧ body = s.toBody f ∧
      Course ⟨f, tree, registry, scope.name⟩ entry s := by
  obtain ⟨ctx, s, u, hctx, -, hrun, rfl⟩ := exists_session h
  obtain ⟨scope, entry, hscope, hcourse⟩ := Course.of_run hctx hrun
  exact ⟨scope, entry, s, hscope, rfl, hcourse⟩

/-- A compiled body is what the passes make of such a body. -/
theorem Function.exists_compiled (h : (f.compile tree registry options).result = .ok body) :
    ∃ scope entry s, tree.scope? f.scope = some scope ∧
      body = ((s.toBody f).optimize registry options).1 ∧
      Course ⟨f, tree, registry, scope.name⟩ entry s := by
  unfold Function.compile at h
  dsimp only at h
  split at h
  · rename_i reason hlowered
    rw [hlowered] at h
    cases h
  · rename_i lowered hlowered
    obtain ⟨scope, entry, s, hscope, rfl, hcourse⟩ := exists_course hlowered
    exact ⟨scope, entry, s, hscope, (Except.ok.inj h).symm, hcourse⟩

end ScriptLowering
