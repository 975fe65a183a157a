import ScriptLowering.Proofs.Labels

/-!
# Well-formed bodies

A body may be written by hand. It is consistent if every temp is defined at most once and read only
behind its definition, if every slot that it names is in the table and the slots marked as assigned
once are those with one store. It is well formed if besides every label that it refers to stands in
one place. The passes rely on this and keep it: each of them is a revision of the code (`Revision`),
and what it drops no other instruction reads.

## Main results

* `Body.optimize_wellFormed`: the passes keep a body well formed, its instructions in order and its
  tables as they are.
-/

namespace ScriptLowering

/-! ### Slots in code -/

/-- The slot that the instruction loads or stores, and whether it stores it. -/
def Instr.slotAccess? : Instr → Option (Bool × Slot)
  | .define _ (.loadSlot slot) => some (false, slot)
  | .perform (.storeSlot slot _) => some (true, slot)
  | _ => none

/-- The loads and stores of slots, in order. -/
def slotAccesses (code : List Instr) : List (Bool × Slot) :=
  code.filterMap Instr.slotAccess?

theorem mem_slotAccesses_of_load {code : List Instr} {result : Temp} {slot : Slot}
    (h : .define result (.loadSlot slot) ∈ code) : (false, slot) ∈ slotAccesses code :=
  List.mem_filterMap.2 ⟨_, h, rfl⟩

/-- Slots are loaded and stored as before. -/
def Revision.KeepsSlots (r : Revision) : Prop :=
  ∀ i o, (i, o) ∈ r → o.bind Instr.slotAccess? = i.slotAccess?

theorem Revision.KeepsSlots.slotAccesses_eq {r : Revision} (h : r.KeepsSlots) :
    slotAccesses r.behind = slotAccesses r.before := by
  rw [slotAccesses, slotAccesses, behind, before, List.filterMap_filterMap, List.filterMap_map]
  exact List.filterMap_congr fun p hp => h p.1 p.2 hp

/-! ### Well-formedness -/

instance (code : List Instr) : Decidable (UsesDefined code) :=
  decidable_of_iff (∀ n < code.length, ∀ i ∈ code[n]?, i.uses ⊆ definedTemps (code.take n))
    ⟨fun h n i hi => h n (List.getElem?_eq_some_iff.1 hi).1 i hi, fun h n _ i hi => h n i hi⟩

namespace Body

/-- How often a slot is stored. -/
def storeCount (b : Body) (slot : Slot) : Nat :=
  (slotAccesses b.code).count (true, slot)

/-- The temps and slots of a body are in order: the passes rely on this. -/
structure Consistent (b : Body) : Prop where
  /-- No temp is defined twice. -/
  definedOnce : (definedTemps b.code).Nodup
  /-- Every temp that is read is defined further up. -/
  usesDefined : UsesDefined b.code
  slots : ∀ access ∈ slotAccesses b.code, access.2.index < b.slots.size
  exit : ∀ e, b.epilogue = some e → e.slot.index < b.slots.size
  marked : ∀ slot ∈ b.singleAssignment, slot.index < b.slots.size
  /-- The slots marked as assigned once are those with one store. -/
  single : ∀ slot, slot ∈ b.singleAssignment ↔ b.storeCount slot = 1

/-- The temps and slots are in order, and so are the labels. -/
structure WellFormed (b : Body) : Prop extends Consistent b where
  /-- Every label that the body refers to stands in one place. -/
  labels : ∀ l, b.Mentions l → ∃! n, b.Placed l n

/-- What the passes leave of a body: its instructions in order, each as it was or rewritten in
place, and the rest of the tables. -/
structure ReworkedTo (b b' : Body) : Prop where
  code : List.SublistForall₂ (fun i' i => i.Becomes i') b'.code b.code
  name : b'.name = b.name
  isAsync : b'.isAsync = b.isAsync
  isGenerator : b'.isGenerator = b.isGenerator
  labelCount : b'.labelCount = b.labelCount
  regions : b'.regions = b.regions
  resumePoints : b'.resumePoints = b.resumePoints
  stateFields : b'.stateFields = b.stateFields
  temps : b'.temps.size = b.temps.size

variable {b b' b'' : Body}
variable {l : Label}

theorem sublistForall₂_becomes_refl (code : List Instr) :
    List.SublistForall₂ (fun i' i => i.Becomes i') code code := by
  induction code with
  | nil => exact .nil
  | cons i code ih => exact .cons (.same i) ih

theorem ReworkedTo.refl (b : Body) : b.ReworkedTo b :=
  ⟨sublistForall₂_becomes_refl _, rfl, rfl, rfl, rfl, rfl, rfl, rfl, rfl⟩

theorem ReworkedTo.trans (h : b.ReworkedTo b') (h' : b'.ReworkedTo b'') : b.ReworkedTo b'' where
  code := by
    have : IsTrans Instr fun i' i => i.Becomes i' := ⟨fun _ _ _ h h' => h'.trans h⟩
    exact Trans.trans h'.code h.code
  name := h'.name.trans h.name
  isAsync := h'.isAsync.trans h.isAsync
  isGenerator := h'.isGenerator.trans h.isGenerator
  labelCount := h'.labelCount.trans h.labelCount
  regions := h'.regions.trans h.regions
  resumePoints := h'.resumePoints.trans h.resumePoints
  stateFields := h'.stateFields.trans h.stateFields
  temps := h'.temps.trans h.temps

/-- What is in the reworked code stood in the code or takes the place of what did. -/
theorem exists_of_mem_sublistForall₂ {code code' : List Instr}
    (h : List.SublistForall₂ (fun i' i => i.Becomes i') code' code) {i' : Instr} (hi' : i' ∈ code') :
    ∃ i ∈ code, i.Becomes i' := by
  induction h with
  | nil => cases hi'
  | cons hbecomes _ ih =>
    rcases List.mem_cons.1 hi' with rfl | hi'
    · exact ⟨_, .head _, hbecomes⟩
    · obtain ⟨i, hi, hi'⟩ := ih hi'
      exact ⟨i, .tail _ hi, hi'⟩
  | cons_right _ ih =>
    obtain ⟨i, hi, hi'⟩ := ih hi'
    exact ⟨i, .tail _ hi, hi'⟩

/-! ### Labels -/

/-- A trimmed body refers to no new label. -/
theorem TrimsTo.mentions (h : b.TrimsTo b') (hl : b'.Mentions l) : b.Mentions l := by
  have hmem : ∀ {i : Instr}, i.isSoft = false → i ∈ b'.code → i ∈ b.code :=
    fun hsoft hi => (h.code.mem_iff hsoft).1 hi
  cases hl with
  | @jump i hi hl =>
    cases i with
    | branch => exact .jump (hmem rfl hi) hl
    | branchIf => exact .jump (hmem rfl hi) hl
    | leave => exact .jump (hmem rfl hi) hl
    | _ => cases hl
  | dispatch hi htarget hl => exact .dispatch (hmem rfl hi) htarget hl
  | dispatchStart hi => exact .dispatchStart (hmem rfl hi)
  | suspend hi => exact .suspend (hmem rfl hi)
  | resumePoint hp hl => exact .resumePoint (h.resumePoints ▸ hp) hl
  | region hr hl => exact .region (h.regions ▸ hr) hl
  | @epilogue e he hl =>
    have hsame : b.epilogue.map ReturnEpilogue.label = some l := by
      rw [← h.epilogue, he, Option.map_some, hl]
    obtain ⟨e', he', hl'⟩ := Option.map_eq_some_iff.1 hsame
    exact .epilogue he' hl'

/-- A label that stands in one place does so behind the passes. -/
theorem TrimsTo.existsUnique_placed (h : b.TrimsTo b') (hl : ∃! n, b.Placed l n) :
    ∃! n, b'.Placed l n := by
  obtain ⟨f, hf⟩ := h.code.exists_positions
  obtain ⟨n, hn, hunique⟩ := hl
  refine ⟨f n, (hf.keeps hn rfl).1, fun m hm => ?_⟩
  obtain ⟨k, i, hk, hfk, -, hsame⟩ := hf.source hm
  rcases hsame with rfl | ⟨-, hsoft⟩
  · exact hunique k hk ▸ hfk.symm
  · cases hsoft

theorem TrimsTo.labels (h : b.TrimsTo b') (hlabels : ∀ l, b.Mentions l → ∃! n, b.Placed l n)
    (l : Label) (hl : b'.Mentions l) : ∃! n, b'.Placed l n :=
  h.existsUnique_placed (hlabels l (h.mentions hl))

/-! ### Steps of the passes -/

/-- A step of the passes: a consistent body stays consistent and is only reworked. -/
def Tends (b b' : Body) : Prop :=
  b.Consistent → b'.Consistent ∧ b.ReworkedTo b'

theorem Tends.refl (b : Body) : b.Tends b :=
  fun h => ⟨h, .refl b⟩

theorem Tends.trans (h : b.Tends b') (h' : b'.Tends b'') : b.Tends b'' := fun hwf =>
  have ⟨hwf', hreworked⟩ := h hwf
  have ⟨hwf'', hreworked'⟩ := h' hwf'
  ⟨hwf'', hreworked.trans hreworked'⟩

theorem passIf_tends {pass : Body → Body × Nat} (h : ∀ b : Body, b.Tends (pass b).1) (b : Body)
    (isEnabled : Bool) : b.Tends (b.passIf isEnabled pass).1 := by
  unfold passIf
  split
  · exact h b
  · exact .refl b

/-- A sound revision that leaves slots alone is a step. -/
theorem Tends.of_revision {r : Revision} (hbefore : r.before = b.code)
    (hslots : r.KeepsSlots) (hsound : b.Consistent → r.Sound) :
    b.Tends { b with code := r.behind } := by
  intro h
  have haccesses : slotAccesses r.behind = slotAccesses b.code := hbefore ▸ hslots.slotAccesses_eq
  have hcode := Revision.sublistForall₂ (hsound h).allowed
  have hdefined := Revision.definedTemps_sublist (hsound h).allowed
  rw [hbefore] at hcode hdefined
  refine ⟨⟨hdefined.nodup h.definedOnce, (hsound h).usesDefined, ?_, h.exit, h.marked,
    fun slot => ?_⟩, hcode, rfl, rfl, rfl, rfl, rfl, rfl, rfl, rfl⟩
  · exact haccesses ▸ h.slots
  · rw [storeCount, haccesses]
    exact h.single slot

end Body

/-! ### Coercions, field stores and arrays -/

theorem Body.reuseCoercions_tends (b : Body) : b.Tends b.reuseCoercions.1 := by
  obtain ⟨r, hbefore, hbehind, hedits⟩ := CoercionReuse.exists_revision b
  have heq : b.reuseCoercions.1 = { b with code := r.behind } := by
    rw [hbehind]
    rfl
  rw [heq]
  refine .of_revision hbefore (fun i o hmem => ?_) fun h =>
    CoercionReuse.sound_of_each hedits (hbefore ▸ h.usesDefined)
  obtain ⟨front, hedit⟩ := hedits.of_mem hmem
  cases hedit <;> rfl

namespace TypeNormalization

open Body

variable {b : Body}
variable {loaded : Array Bool} {i : Instr} {kept : List Bool} {k : Nat}
  {number slot slot' : Slot}

theorem size_typeConstruction (state : Array (Option Storage) × Nat) (i : Instr) :
    (typeConstruction state i).1.size = state.1.size := by
  unfold typeConstruction
  split
  · dsimp only
    split
    · rfl
    · split
      · rfl
      · exact Array.size_setIfInBounds
  · rfl

/-- A temp keeps its storage unless it is the result of a construction. -/
theorem foldl_typeConstruction (code : List Instr) (state : Array (Option Storage) × Nat)
    (t : Temp) : (code.foldl typeConstruction state).1[t.index]? = state.1[t.index]? ∨
      ∃ className args, .define t (.newClass className args) ∈ code ∧
        (code.foldl typeConstruction state).1[t.index]?
          = some (some (.reference (.userClass className))) := by
  induction code generalizing state with
  | nil => exact .inl rfl
  | cons i code ih =>
    rw [List.foldl_cons]
    rcases ih (typeConstruction state i) with hsame | ⟨className, args, hmem, htyped⟩
    · rw [hsame]
      unfold typeConstruction
      split
      · rename_i result className args
        dsimp only
        split
        · exact .inl rfl
        · rename_i entry hentry
          split
          · exact .inl rfl
          · rw [Array.getElem?_setIfInBounds]
            split
            · rename_i heq
              obtain rfl : result = t := congrArg Temp.mk heq
              have hlt := (Array.getElem?_eq_some_iff.1 hentry).1
              exact .inr ⟨className, args, .head _, by rw [if_pos hlt]⟩
            · exact .inl rfl
      · exact .inl rfl
    · exact .inr ⟨className, args, .tail _ hmem, htyped⟩

theorem typeConstructions_tends (b : Body) : b.Tends (typeConstructions b).1 := by
  have hsize : ∀ (code : List Instr) (state : Array (Option Storage) × Nat),
      (code.foldl typeConstruction state).1.size = state.1.size := by
    intro code
    induction code with
    | nil => exact fun state => rfl
    | cons i code ih => exact fun state => (ih _).trans (size_typeConstruction state i)
  intro h
  exact ⟨⟨h.definedOnce, h.usesDefined, h.slots, h.exit, h.marked, h.single⟩,
    sublistForall₂_becomes_refl _, rfl, rfl, rfl, rfl, rfl, rfl, rfl, hsize b.code (b.temps, 0)⟩

theorem unboxing_keepsSlots (stretches : List Stretch) :
    Revision.KeepsSlots (stretches.flatMap Stretch.entries) := by
  intro i o hmem
  cases o with
  | none =>
    obtain ⟨_, _, _, _, _, _, -, rfl⟩ := Unboxing.mem_none hmem
    rfl
  | some i' =>
    rcases Unboxing.mem_some hmem with rfl | ⟨_, _, _, _, _, _, -, rfl, rfl⟩
    · rfl
    · rfl

theorem unboxFieldStores_tends (b : Body) : b.Tends (unboxFieldStores b).1 := by
  obtain ⟨stretches, hunboxing⟩ := exists_unboxing b
  rw [hunboxing.result]
  exact .of_revision hunboxing.before (unboxing_keepsSlots stretches) fun h =>
    hunboxing.sound h.definedOnce h.usesDefined

theorem arrayRevision_keepsSlots (b : Body) : (arrayRevision b).KeepsSlots := by
  intro i o hmem
  obtain ⟨j, -, hj⟩ := List.mem_map.1 hmem
  cases hj
  rcases arrayCopy?_getD b i with heq | ⟨result, source, rfl, -, heq⟩
  · rw [heq]
    rfl
  · rw [heq]
    rfl

theorem copyArrays_tends (b : Body) : b.Tends (copyArrays b).1 := by
  have heq : (copyArrays b).1 = { b with code := (arrayRevision b).behind } := by
    rw [behind_arrayRevision]
    rfl
  rw [heq]
  exact .of_revision (before_arrayRevision b) (arrayRevision_keepsSlots b) fun h =>
    arrayRevision_sound h.usesDefined

/-! ### Slots -/

/-- The numbers of kept slots, counted from the given one. -/
def numbersFrom : Nat → List Bool → List (Option Slot)
  | _, [] => []
  | next, true :: kept => some ⟨next⟩ :: numbersFrom (next + 1) kept
  | next, false :: kept => none :: numbersFrom next kept

/-- The numbers behind those that were given so far. -/
theorem foldl_slotNumbers (kept : List Bool) (numbers : Array (Option Slot)) (next : Nat) :
    (kept.foldl (fun (numbers, next) isKept =>
      if isKept then (numbers.push (some ⟨next⟩), next + 1) else (numbers.push none, next))
      (numbers, next)).1.toList = numbers.toList ++ numbersFrom next kept := by
  induction kept generalizing numbers next with
  | nil => simp [numbersFrom]
  | cons isKept kept ih =>
    cases isKept with
    | true => simpa [numbersFrom] using ih (numbers.push (some ⟨next⟩)) (next + 1)
    | false => simpa [numbersFrom] using ih (numbers.push none) next

theorem slotNumbers_toList (kept : Array Bool) :
    (slotNumbers kept).toList = numbersFrom 0 kept.toList := by
  rw [slotNumbers, ← Array.foldl_toList]
  exact foldl_slotNumbers kept.toList #[] 0

/-- The number of a kept slot is that of the kept slots further up. -/
theorem getElem?_numbersFrom (next : Nat) (kept : List Bool) (k : Nat) : (numbersFrom next kept)[k]?.join =
    if kept[k]? = some true then some ⟨next + (kept.take k).count true⟩ else none := by
  induction kept generalizing next k with
  | nil => rfl
  | cons isKept kept ih =>
    cases k with
    | zero => cases isKept <;> simp [numbersFrom]
    | succ k => cases isKept <;> simp [numbersFrom, ih, Nat.add_assoc, Nat.add_comm 1]

theorem count_take_lt {k' : Nat} (h : kept[k]? = some true) (hlt : k < k') :
    (kept.take k).count true < (kept.take k').count true := by
  have hle := (List.take_sublist_take_left (l := kept) hlt).count_le true
  rw [List.take_add_one, h, List.count_append] at hle
  exact hle

/-- The data of a kept slot stands at its number. -/
theorem getElem?_of_kept {infos : List SlotInfo} (hlength : infos.length = kept.length)
    (h : kept[k]? = some true) : ((infos.zip kept).filterMap fun (info, isKept) =>
      if isKept then some info else none)[(kept.take k).count true]? = infos[k]? := by
  induction kept generalizing k infos with
  | nil => cases h
  | cons isKept kept ih =>
    cases infos with
    | nil => cases hlength
    | cons info infos =>
    cases k with
    | zero =>
      obtain rfl : isKept = true := by simpa using h
      simp
    | succ k => cases isKept <;> simpa using ih (by simpa using hlength) (by simpa using h)

theorem numberIn?_eq_some : numberIn? b slot = some number ↔
    (keptSlots b)[slot.index]? = some true ∧
      number = ⟨((keptSlots b).toList.take slot.index).count true⟩ := by
  rw [numberIn?, ← Array.getElem?_toList, slotNumbers_toList, getElem?_numbersFrom, Nat.zero_add,
    Array.getElem?_toList]
  simp [eq_comm]

theorem numberIn?_injective (h : numberIn? b slot = some number)
    (h' : numberIn? b slot' = some number) : slot = slot' := by
  obtain ⟨hkept, rfl⟩ := numberIn?_eq_some.1 h
  obtain ⟨hkept', heq⟩ := numberIn?_eq_some.1 h'
  rw [← Array.getElem?_toList] at hkept hkept'
  rcases Nat.lt_trichotomy slot.index slot'.index with hlt | hsame | hlt
  · exact absurd (congrArg Slot.index heq) (count_take_lt hkept hlt).ne
  · exact congrArg Slot.mk hsame
  · exact absurd (congrArg Slot.index heq) (count_take_lt hkept' hlt).ne'

/-- A kept slot has a number. -/
theorem exists_number_of_kept (h : (keptSlots b)[slot.index]? = some true) :
    ∃ number, numberIn? b slot = some number :=
  ⟨_, numberIn?_eq_some.2 ⟨h, rfl⟩⟩

/-- Marks the slot of a load. -/
def markLoad (loaded : Array Bool) (access : Bool × Slot) : Array Bool :=
  if access.1 then loaded else loaded.setIfInBounds access.2.index true

/-- What the shared exit returns is loaded as well. -/
theorem loadedSlots_eq (b : Body) : loadedSlots b =
    (slotAccesses b.code ++ (b.epilogue.map fun e => (false, e.slot)).toList).foldl markLoad
      (.replicate b.slots.size false) := by
  suffices hcode : ∀ (code : List Instr) (loaded : Array Bool),
      code.foldl _ loaded = (slotAccesses code).foldl markLoad loaded by
    rw [List.foldl_append, ← hcode]
    unfold loadedSlots
    cases b.epilogue <;> rfl
  intro code
  induction code with
  | nil => exact fun _ => rfl
  | cons i code ih =>
    intro loaded
    rw [List.foldl_cons, ih]
    cases i with
    | define result op => cases op <;> rfl
    | perform effect => cases effect <;> rfl
    | _ => rfl

/-- A load marks its slot, and marks stay. -/
theorem getElem?_foldl_markLoad (accesses : List (Bool × Slot)) (slot : Slot) :
    (accesses.foldl markLoad loaded)[slot.index]?
      = loaded[slot.index]?.map (· || decide ((false, slot) ∈ accesses)) := by
  induction accesses generalizing loaded with
  | nil => simp
  | cons access accesses ih =>
    obtain ⟨isStore, slot'⟩ := access
    rw [List.foldl_cons, ih]
    cases isStore with
    | true => simp [markLoad]
    | false =>
      by_cases heq : slot = slot'
      · subst heq
        by_cases hlt : slot.index < loaded.size <;> simp [markLoad, hlt]
      · have hindex : slot'.index ≠ slot.index := fun h => heq (congrArg Slot.mk h.symm)
        simp [markLoad, heq, hindex]

theorem size_loadedSlots (b : Body) : (loadedSlots b).size = b.slots.size := by
  have hsize : ∀ (accesses : List (Bool × Slot)) (loaded : Array Bool),
      (accesses.foldl markLoad loaded).size = loaded.size := by
    intro accesses
    induction accesses with
    | nil => exact fun _ => rfl
    | cons access accesses ih =>
      intro loaded
      rw [List.foldl_cons, ih, markLoad]
      split <;> simp
  rw [loadedSlots_eq, hsize, Array.size_replicate]

theorem size_keptSlots (b : Body) : (keptSlots b).size = b.slots.size := by
  simp [keptSlots, size_loadedSlots]

/-- A slot of the table is kept if it is loaded or holds what the shared exit returns. -/
theorem kept_of_loaded (hsize : slot.index < b.slots.size)
    (h : (false, slot) ∈ slotAccesses b.code ∨ ∃ e, b.epilogue = some e ∧ e.slot = slot) :
    (keptSlots b)[slot.index]? = some true := by
  have hloaded : (loadedSlots b)[slot.index]? = some true := by
    have hmem : (false, slot) ∈
        slotAccesses b.code ++ (b.epilogue.map fun e => (false, e.slot)).toList := by
      rcases h with h | ⟨e, he, rfl⟩ <;> simp [*]
    rw [loadedSlots_eq, getElem?_foldl_markLoad, decide_eq_true hmem]
    simp [hsize]
  simp [keptSlots, Array.getElem?_zip_eq_some, hloaded, hsize]

/-- The data of slots stay at their numbers. -/
theorem getElem?_slots_of_number (h : numberIn? b slot = some number) :
    ((b.slots.zip (keptSlots b)).filterMap fun (info, isKept) =>
      if isKept then some info else none)[number.index]? = b.slots[slot.index]? := by
  obtain ⟨hkept, rfl⟩ := numberIn?_eq_some.1 h
  have hlength : b.slots.toList.length = (keptSlots b).toList.length := by simp [size_keptSlots]
  rw [← Array.getElem?_toList] at hkept
  rw [← Array.getElem?_toList, Array.toList_filterMap, Array.toList_zip, getElem?_of_kept hlength hkept,
    Array.getElem?_toList]

/-- An instruction keeps its temps, and goes only if it stores a slot. -/
theorem renumber?_cases (h : ∀ access ∈ slotAccesses b.code, access.2.index < b.slots.size)
    (hi : i ∈ b.code) :
    (renumber? (numberIn? b) i = none ∧ i.result? = none) ∨
      ∃ i', renumber? (numberIn? b) i = some i' ∧ i'.uses = i.uses := by
  unfold renumber?
  split
  · rename_i result slot
    have hload := mem_slotAccesses_of_load hi
    obtain ⟨number, hnumber⟩ := exists_number_of_kept (kept_of_loaded (h _ hload) (.inl hload))
    exact .inr ⟨.define result (.loadSlot number), by rw [hnumber]; rfl, rfl⟩
  · rename_i slot value
    cases numberIn? b slot with
    | none => exact .inl ⟨rfl, rfl⟩
    | some number => exact .inr ⟨_, rfl, rfl⟩
  · exact .inr ⟨i, rfl, rfl⟩

theorem slotRevision_sound (huses : UsesDefined b.code)
    (h : ∀ access ∈ slotAccesses b.code, access.2.index < b.slots.size) : (slotRevision b).Sound := by
  refine .of_dropped_eq_nil becomes_of_mem_slotRevision ?_ fun {front rest i i'} hr => ?_
  · refine List.eq_nil_iff_forall_not_mem.2 fun t ht => ?_
    obtain ⟨i, hio, hresult⟩ := Revision.mem_dropped.1 ht
    obtain ⟨hi, ho⟩ := of_mem_slotRevision hio
    rcases renumber?_cases h hi with ⟨-, hnone⟩ | ⟨j, hj, -⟩
    · cases hresult.symm.trans hnone
    · cases ho.trans hj
  · obtain ⟨hi, ho⟩ := of_mem_slotRevision (hr ▸ List.mem_append_right front (.head rest))
    have hreads := Revision.uses_subset ((before_slotRevision b).symm ▸ huses) hr
    rcases renumber?_cases h hi with ⟨hnone, -⟩ | ⟨j, hj, hsame⟩
    · cases ho.trans hnone
    · obtain rfl := Option.some.inj (ho.trans hj)
      exact hsame ▸ hreads

/-- Slots are loaded and stored under their new numbers. -/
theorem slotAccesses_renumber (number? : Slot → Option Slot) (code : List Instr) :
    slotAccesses (code.filterMap (renumber? number?))
      = (slotAccesses code).filterMap fun (isStore, slot) => (number? slot).map (isStore, ·) := by
  rw [slotAccesses, slotAccesses, List.filterMap_filterMap, List.filterMap_filterMap]
  refine List.filterMap_congr fun i hi => ?_
  clear hi
  unfold renumber?
  split
  · rename_i result slot
    cases h : number? slot <;> simp [Instr.slotAccess?, h]
  · rename_i slot value
    cases h : number? slot <;> simp [Instr.slotAccess?, h]
  · rename_i hload hstore
    have hnone : i.slotAccess? = none := by
      unfold Instr.slotAccess?
      split
      · exact absurd rfl (hload _ _)
      · exact absurd rfl (hstore _ _)
      · rfl
    simp [hnone]

/-- A slot is stored as often as before, under its new number. -/
theorem count_renumber {accesses : List (Bool × Slot)} (h : numberIn? b slot = some number) :
    (accesses.filterMap fun (isStore, slot) => (numberIn? b slot).map (isStore, ·)).count (true, number)
      = accesses.count (true, slot) := by
  rw [List.count_filterMap, List.count]
  refine List.countP_congr fun (isStore, slot') _ => ?_
  simp only [beq_iff_eq, Option.map_eq_some_iff, Prod.mk.injEq]
  constructor
  · rintro ⟨number', hnumber, rfl, rfl⟩
    exact ⟨rfl, numberIn?_injective hnumber h⟩
  · rintro ⟨rfl, rfl⟩
    exact ⟨number, h, rfl, rfl⟩

theorem compactSlots_tends (b : Body) : b.Tends (compactSlots b).1 := by
  intro h
  unfold compactSlots
  dsimp only
  split
  · exact Tends.refl b h
  have hsound := slotRevision_sound h.usesDefined h.slots
  have hcode := Revision.sublistForall₂ hsound.allowed
  have hdefined := Revision.definedTemps_sublist hsound.allowed
  have huses := hsound.usesDefined
  rw [before_slotRevision] at hcode hdefined
  rw [behind_slotRevision] at hcode hdefined huses
  have hsize : ∀ {slot number : Slot}, numberIn? b slot = some number → slot.index < b.slots.size →
      number.index < ((b.slots.zip (keptSlots b)).filterMap fun (info, isKept) =>
        if isKept then some info else none).size := by
    intro slot number hnumber hslot
    have hget := getElem?_slots_of_number hnumber
    rw [Array.getElem?_eq_getElem hslot] at hget
    exact (Array.getElem?_eq_some_iff.1 hget).1
  refine ⟨⟨hdefined.nodup h.definedOnce, huses, fun access haccess => ?_, fun e he => ?_,
    fun slot hslot => ?_, fun number => ?_⟩,
    hcode, rfl, rfl, rfl, rfl, rfl, rfl, rfl, rfl⟩
  · replace haccess := slotAccesses_renumber (numberIn? b) b.code ▸ haccess
    obtain ⟨⟨isStore, slot⟩, hslot, haccess⟩ := List.mem_filterMap.1 haccess
    obtain ⟨number, hnumber, rfl⟩ := Option.map_eq_some_iff.1 haccess
    exact hsize hnumber (h.slots _ hslot)
  · obtain ⟨e₀, he₀, rfl⟩ := Option.map_eq_some_iff.1 he
    have hslot := h.exit e₀ he₀
    obtain ⟨number, hnumber⟩ := exists_number_of_kept (kept_of_loaded hslot (.inr ⟨e₀, he₀, rfl⟩))
    have hgetD : (numberIn? b e₀.slot).getD e₀.slot = number := by rw [hnumber]; rfl
    show ((numberIn? b e₀.slot).getD e₀.slot).index < _
    rw [hgetD]
    exact hsize hnumber hslot
  · obtain ⟨slot₀, hslot₀, hnumber⟩ := List.mem_filterMap.1 hslot
    exact hsize hnumber (h.marked slot₀ hslot₀)
  · show number ∈ b.singleAssignment.filterMap (numberIn? b) ↔
      (slotAccesses (b.code.filterMap (renumber? (numberIn? b)))).count (true, number) = 1
    rw [slotAccesses_renumber]
    constructor
    · intro hmem
      obtain ⟨slot, hslot, hnumber⟩ := List.mem_filterMap.1 hmem
      rw [count_renumber hnumber]
      exact (h.single slot).1 hslot
    · intro hcount
      have hmem := List.count_pos_iff.1 (hcount ▸ Nat.one_pos)
      obtain ⟨⟨isStore, slot⟩, -, haccess⟩ := List.mem_filterMap.1 hmem
      obtain ⟨number', hnumber, heq⟩ := Option.map_eq_some_iff.1 haccess
      cases heq
      rw [count_renumber hnumber] at hcount
      exact List.mem_filterMap.2 ⟨slot, (h.single slot).2 hcount, hnumber⟩

end TypeNormalization

/-! ### All passes -/

open TypeNormalization in
theorem Body.normalizeTypes_tends (b : Body) : b.Tends b.normalizeTypes.1 :=
  (typeConstructions_tends b).trans <| (unboxFieldStores_tends _).trans <|
    (copyArrays_tends _).trans (compactSlots_tends _)

theorem Body.bindMemberCalls_tends (b : Body) (registry : Registry) :
    b.Tends (b.bindMemberCalls registry).1 := by
  rw [MemberBinding.bindMemberCalls_fst]
  refine .of_revision (MemberBinding.before_revision b registry) (fun i o hmem => ?_) fun h =>
    MemberBinding.revision_sound h.definedOnce h.usesDefined
  cases MemberBinding.edit_of_mem hmem with
  | keep | taken => rfl
  | fixed hcall | packed _ hcall =>
    obtain ⟨_, _, _, -, -, -, rfl⟩ := hcall
    rfl

theorem Body.optimize_tends (b : Body) (registry : Registry) (options : Options) :
    b.Tends (b.optimize registry options).1 :=
  (passIf_tends reuseCoercions_tends b _).trans <| (passIf_tends normalizeTypes_tends _ _).trans <|
    passIf_tends (fun b => b.bindMemberCalls_tends registry) _ _

/-- The passes keep a body well formed. The instructions that survive keep their order and change
only in place, and the name, the kind of function, the labels, regions, resume points and state
fields and the number of temps stay as they are. -/
theorem Body.optimize_wellFormed (b : Body) (registry : Registry) (options : Options)
    (h : b.WellFormed) :
    (b.optimize registry options).1.WellFormed ∧ b.ReworkedTo (b.optimize registry options).1 := by
  obtain ⟨hconsistent, hreworked⟩ := optimize_tends b registry options h.toConsistent
  exact ⟨⟨hconsistent, (b.optimize_trims registry options).labels h.labels⟩, hreworked⟩

/-- A body in which every pass finds something to do: a second boxing of one number, a field store
behind a boxing, an array of items of an array, a slot that is never loaded and a member call of a
constructed object. -/
def improvable : Body where
  name := "improvable"
  code := [
    .define ⟨0⟩ (.literal (.number (.ofNat 1))),
    .define ⟨1⟩ (.coerce .toObject ⟨0⟩),
    .define ⟨2⟩ (.coerce .toObject ⟨0⟩),
    .define ⟨3⟩ (.newClass "P" [⟨1⟩, ⟨2⟩]),
    .branch ⟨0⟩,
    .label ⟨0⟩,
    .define ⟨4⟩ (.coerce .toObject ⟨0⟩),
    .perform (.storeField ⟨3⟩ "P" "x" (some .double) ⟨4⟩),
    .define ⟨5⟩ (.newArray []),
    .define ⟨6⟩ (.normalizeIterable ⟨5⟩),
    .perform (.storeSlot ⟨0⟩ ⟨6⟩),
    .perform (.storeSlot ⟨1⟩ ⟨3⟩),
    .define ⟨7⟩ (.loadSlot ⟨1⟩),
    .define ⟨8⟩ (.packArguments [⟨1⟩]),
    .define ⟨9⟩ (.callMember ⟨7⟩ "m" ⟨8⟩),
    .ret ⟨9⟩]
  temps := #[some .double, some .object, some .object, some .object, some .object, some .array,
    some .array, some .object, some .object, some .object]
  slots := #[⟨"$0", .object, none⟩, ⟨"$1", .object, none⟩]
  singleAssignment := [⟨0⟩, ⟨1⟩]
  labelCount := 1

theorem improvable_wellFormed : improvable.WellFormed where
  definedOnce := by decide
  usesDefined := by decide
  slots := by decide
  exit := by simp [improvable]
  marked := by decide
  labels l hl := by
    have hjumps : ∀ i ∈ improvable.code, i.target? = none ∨ i.target? = some ⟨0⟩ := by decide
    have hplace : ∀ m < improvable.code.length,
        improvable.code[m]? = some (.label ⟨0⟩) → m = 5 := by decide
    obtain rfl : l = ⟨0⟩ := by
      have hgates : ∀ i ∈ improvable.code, i.gateLabel? = none := by decide
      cases hl with
      | jump hi hl => simpa [hl] using hjumps _ hi
      | dispatch hi => cases hgates _ hi
      | dispatchStart hi => cases hgates _ hi
      | suspend hi => cases hgates _ hi
      | resumePoint hp => cases hp
      | region hr => cases hr
      | epilogue he => cases he
    exact ⟨5, rfl, fun m hm => hplace m (List.getElem?_eq_some_iff.1 hm).1 hm⟩
  single slot := by
    have haccesses : slotAccesses improvable.code = [(true, ⟨0⟩), (true, ⟨1⟩), (false, ⟨1⟩)] := rfl
    have hmarked : improvable.singleAssignment = [⟨0⟩, ⟨1⟩] := rfl
    rw [Body.storeCount, haccesses, hmarked]
    by_cases h₀ : slot = ⟨0⟩
    · simp [h₀]
    · by_cases h₁ : slot = ⟨1⟩
      · simp [h₁]
      · have hother : (true, slot) ∉ [(true, ⟨0⟩), (true, ⟨1⟩), (false, ⟨1⟩)] := by simp [h₀, h₁]
        simp [h₀, h₁, List.count_eq_zero.2 hother]

/-- The class of the constructed object. -/
def improvableClasses : Registry :=
  .ofList [({ name := "P" } : ClassInfo).addMethod "m" 1 false]

theorem optimize_wellFormed_improvable :
    (improvable.optimize improvableClasses {}).1.code.length = 13 ∧
      (improvable.optimize improvableClasses {}).1.WellFormed ∧
      improvable.ReworkedTo (improvable.optimize improvableClasses {}).1 :=
  ⟨by decide +kernel, Body.optimize_wellFormed improvable improvableClasses {} improvable_wellFormed⟩

end ScriptLowering
