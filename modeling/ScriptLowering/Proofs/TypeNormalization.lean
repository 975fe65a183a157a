import ScriptLowering.Proofs.Revision.Execution

/-!
# Type normalization keeps the meaning

The four improvements of a body are one revision of its code (`TypeNormalization.revision`). Most
instructions stay. A boxing goes if nothing but the field store behind it reads the box, and that
store takes the bare value; an array of the items of an array is a copy; and slots have new numbers,
or none if nobody loads them.

The code behind the revision makes the same calls and has the same effects on fields, properties and
arguments as the code in front of it, and ends with the same outcome. Three things are assumed about
the instructions (`Answers.Respects`): boxing a bare value has no other effect, to store the box
into a field of the value's own type is to store the value, and an array is its own array of items.
Besides, what is read has to be what the storage of the temp says. Of two memories that correspond,
one has the slots under their new numbers, and both have the same in all temps that are still
defined.

The one place where the two runs are apart is between a boxing and its store: there the box is in
the memory of one of them only (`TypeNormalization.Related`).

## Main results

* `TypeNormalization.follows`: the code behind the revision follows the code in front of it;
* `Body.normalizeTypes_keepsMeaning`: the pass keeps the meaning of a body, and only slots that
  nobody reads are dropped.
-/

namespace ScriptLowering

variable {V W A O : Type}

/-- What is assumed about the instructions that the pass changes. `Matches` says which values a
storage can hold, and `box` is what boxing makes of a bare value. -/
structure Answers.Respects (I : Answers V W A O) (Matches : Storage → V → Prop) (box : V → V) : Prop where
  copies : ∀ {labels t source v w a},
    I labels (.define t (.copy source)) [v] w a ↔ a = .value t v w
  boxes : ∀ {labels t source storage v w a}, storage.isUnboxed = true → Matches storage v →
    (I labels (.define t (.coerce .toObject source)) [v] w a ↔ a = .value t (box v) w)
  stores : ∀ {labels receiver className field ty t t' u v w a},
    (Storage.ofType ty).isUnboxed = true → Matches (Storage.ofType ty) v →
    (I labels (.perform (.storeField receiver className field (some ty) t)) [u, v] w a ↔
      I labels (.perform (.storeField receiver className field (some ty) t')) [u, box v] w a)
  iterates : ∀ {labels t source storage v w a}, storage.isArray = true → Matches storage v →
    (I labels (.define t (.normalizeIterable source)) [v] w a ↔ a = .value t v w)

/-- In the runs of the body, what is read is what the storage of the temp says. -/
def Answers.Matched (I : Answers V W A O) (Matches : Storage → V → Prop) (b : Body)
    (σ₀ : Memory V W) : Prop :=
  ∀ {past n σ i}, I.Runs b.code σ₀ past n σ → b.code[n]? = some i →
    ∀ t ∈ i.uses, Matches (b.storageOf t) (σ.temps t)

open TypeNormalization

namespace Body

/-- The slots that the body names are in its table. -/
structure NamesSlots (b : Body) : Prop where
  accesses : ∀ access ∈ slotAccesses b.code, access.2.index < b.slots.size
  exit : ∀ e, b.epilogue = some e → e.slot.index < b.slots.size
  marked : ∀ slot ∈ b.singleAssignment, slot.index < b.slots.size

/-- A memory of the body and one of another body that has its slots under new numbers. -/
structure Corresponds (b b' : Body) (σ σ' : Memory V W) : Prop where
  world : σ'.world = σ.world
  temps : ∀ t ∈ definedTemps b'.code, σ'.temps t = σ.temps t
  slots : ∀ {slot number}, numberIn? b slot = some number → σ'.slots number = σ.slots slot

/-- Slots are in the other body under their new numbers. Those without a number belong to no
binding, and neither a load nor the shared exit reads them. -/
structure CompactedTo (b b' : Body) : Prop where
  table : ∀ {slot number}, numberIn? b slot = some number → b'.slot? number = b.slot? slot
  marked : b'.singleAssignment = b.singleAssignment.filterMap (numberIn? b)
  exit : b'.epilogue = b.epilogue.map fun e => { e with slot := (numberIn? b e.slot).getD e.slot }
  apart : ∀ {slot slot' number}, numberIn? b slot = some number → numberIn? b slot' = some number →
    slot = slot'
  dropped : ∀ {slot info}, b.slot? slot = some info → numberIn? b slot = none →
    info.isAnonymous = true ∧ (∀ t, .define t (.loadSlot slot) ∉ b.code) ∧
      ∀ e, b.epilogue = some e → e.slot ≠ slot

end Body

namespace TypeNormalization

variable {b b' : Body} {n : Nat} {i : Instr} {o : Option Instr} {stretches : List Stretch}
variable {i' : Instr} {p : Instr × Option Instr} {r : Revision} {slot : Slot}

/-! ### Slots -/

/-- Which slots are kept does not depend on anything but the accesses to slots. -/
theorem numberIn?_congr (hslots : b'.slots = b.slots) (hexit : b'.epilogue = b.epilogue)
    (haccesses : slotAccesses b'.code = slotAccesses b.code) : numberIn? b' = numberIn? b := by
  have hkept : keptSlots b' = keptSlots b := by
    rw [keptSlots, keptSlots, loadedSlots_eq, loadedSlots_eq, haccesses, hexit, hslots]
  funext slot
  rw [numberIn?, numberIn?, hkept]

/-- Only slots of the table have numbers. -/
theorem lt_size_of_number {number : Slot} (h : numberIn? b slot = some number) :
    slot.index < b.slots.size :=
  size_keptSlots b ▸ (Array.getElem?_eq_some_iff.1 (numberIn?_eq_some.1 h).1).1

/-- Where all slots are kept, they keep their numbers. -/
theorem numberIn?_of_all_kept (h : (keptSlots b).toList.countP (!·) = 0)
    (hslot : slot.index < b.slots.size) : numberIn? b slot = some slot := by
  have hall : ∀ isKept ∈ (keptSlots b).toList, isKept = true := by simpa [List.countP_eq_zero] using h
  have hlength : slot.index < (keptSlots b).toList.length := by simpa [size_keptSlots] using hslot
  have hcount : ((keptSlots b).toList.take slot.index).count true = slot.index := by
    rw [List.count_eq_length.2 fun isKept hmem => (hall isKept (List.mem_of_mem_take hmem)).symm,
      List.length_take_of_le hlength.le]
  refine numberIn?_eq_some.2 ⟨?_, by rw [hcount]⟩
  rw [← Array.getElem?_toList, List.getElem?_eq_getElem hlength, hall _ (List.getElem_mem hlength)]

/-- A slot without a number belongs to no binding, and is not read. -/
theorem unread_of_number_none {info : SlotInfo} (hinfo : b.slot? slot = some info)
    (h : numberIn? b slot = none) :
    info.isAnonymous = true ∧ (∀ t, .define t (.loadSlot slot) ∉ b.code) ∧
      ∀ e, b.epilogue = some e → e.slot ≠ slot := by
  have hslot : slot.index < b.slots.size := (Array.getElem?_eq_some_iff.1 hinfo).1
  have hkept : (keptSlots b)[slot.index]? ≠ some true := fun hkept => by
    obtain ⟨number, hnumber⟩ := exists_number_of_kept hkept
    cases h.symm.trans hnumber
  refine ⟨?_, fun t hload => hkept ?_, fun e he heq => hkept ?_⟩
  · by_contra hnamed
    have hloaded : slot.index < (loadedSlots b).size := by rwa [size_loadedSlots]
    have hentry : (b.slots.zip (loadedSlots b))[slot.index]? = some (info, (loadedSlots b)[slot.index]) :=
      Array.getElem?_zip_eq_some.2 ⟨hinfo, Array.getElem?_eq_getElem hloaded⟩
    refine hkept ?_
    rw [keptSlots, Array.getElem?_map, hentry]
    simp [Bool.eq_false_of_not_eq_true hnamed]
  · exact kept_of_loaded hslot (.inl (mem_slotAccesses_of_load hload))
  · exact kept_of_loaded hslot (.inr ⟨e, he, heq⟩)

theorem compactSlots_code (h : b.NamesSlots) :
    (compactSlots b).1.code = b.code.filterMap (renumber? (numberIn? b)) ∧
      b.CompactedTo (compactSlots b).1 := by
  unfold compactSlots
  dsimp only
  split
  · rename_i hall
    have hsame : ∀ slot : Slot, slot.index < b.slots.size → numberIn? b slot = some slot :=
      fun slot hslot => numberIn?_of_all_kept hall hslot
    refine ⟨?_, fun {slot number} hnumber => ?_, ?_, ?_, numberIn?_injective, unread_of_number_none⟩
    · refine .symm ((List.filterMap_congr fun i hi => ?_).trans List.filterMap_some)
      have haccess : ∀ access, i.slotAccess? = some access → access.2.index < b.slots.size :=
        fun access haccess => h.accesses access (List.mem_filterMap.2 ⟨i, hi, haccess⟩)
      unfold renumber?
      split
      · rw [hsame _ (haccess _ rfl)]
        rfl
      · rw [hsame _ (haccess _ rfl)]
        rfl
      · rfl
    · rw [Option.some.inj ((hsame slot (lt_size_of_number hnumber)).symm.trans hnumber)]
    · exact ((List.filterMap_congr fun slot hslot => hsame slot (h.marked slot hslot)).trans
        List.filterMap_some).symm
    · cases he : b.epilogue with
      | none => rfl
      | some e =>
        have hslot := hsame e.slot (h.exit e he)
        simp [hslot]
  · exact ⟨rfl, getElem?_slots_of_number, rfl, rfl, numberIn?_injective, unread_of_number_none⟩

/-! ### The pass as a revision -/

/-- A bare value or an array is no result of a construction. -/
theorem storageOf_typeConstructions (b : Body) (t : Temp) :
    (typeConstructions b).1.storageOf t = b.storageOf t ∨
      ∃ className args, .define t (.newClass className args) ∈ b.code ∧
        (typeConstructions b).1.storageOf t = .reference (.userClass className) := by
  refine (foldl_typeConstruction b.code (b.temps, 0) t).imp (fun hsame => ?_) ?_
  · exact congrArg (fun entry : Option (Option Storage) => (entry.bind id).getD .unknown) hsame
  · rintro ⟨className, args, hmem, htyped⟩
    refine ⟨className, args, hmem, ?_⟩
    exact congrArg (fun entry : Option (Option Storage) => (entry.bind id).getD .unknown) htyped

theorem storageOf_eq {t : Temp} (h : ((typeConstructions b).1.storageOf t).isUnboxed = true ∨
    ((typeConstructions b).1.storageOf t).isArray = true) :
    (typeConstructions b).1.storageOf t = b.storageOf t := by
  refine (storageOf_typeConstructions b t).resolve_right ?_
  rintro ⟨className, args, -, hstorage⟩
  rw [hstorage] at h
  exact h.elim nofun nofun

/-- What becomes of an instruction behind the unboxing. -/
def finish (b : Body) (i : Instr) : Option Instr :=
  renumber? (numberIn? b) ((arrayCopy? (typeConstructions b).1 i).getD i)

/-- All that the pass does to the code. -/
def revision (b : Body) (stretches : List Stretch) : Revision :=
  (stretches.flatMap Stretch.entries).map fun p => (p.1, p.2.bind (finish b))

theorem behind_revision (b : Body) (stretches : List Stretch) : (revision b stretches).behind
    = (Revision.behind (stretches.flatMap Stretch.entries)).filterMap (finish b) := by
  rw [Revision.behind, Revision.behind, revision, List.filterMap_map, List.filterMap_filterMap]
  rfl

/-- The pass is this revision, and what it leaves is defined further up. -/
theorem normalizeTypes_code (h : b.NamesSlots) (hnodup : (definedTemps b.code).Nodup)
    (huses : UsesDefined b.code) (hunboxing : Unboxing (typeConstructions b).1 stretches) :
    (revision b stretches).before = b.code ∧ (revision b stretches).behind = b.normalizeTypes.1.code ∧
      UsesDefined b.normalizeTypes.1.code ∧ b.CompactedTo b.normalizeTypes.1 := by
  generalize hb₁ : (typeConstructions b).1 = b₁ at hunboxing
  generalize hb₂ : (unboxFieldStores b₁).1 = b₂
  generalize hb₃ : (copyArrays b₂).1 = b₃
  have hb₄ : b.normalizeTypes.1 = (compactSlots b₃).1 := by
    subst hb₃ hb₂ hb₁
    rfl
  have hcode₁ : b₁.code = b.code := hb₁ ▸ rfl
  have hbehind₂ : Revision.behind (stretches.flatMap Stretch.entries) = b₂.code := hb₂ ▸ hunboxing.behind
  have hbehind₃ : (arrayRevision b₂).behind = b₃.code := hb₃ ▸ behind_arrayRevision b₂
  have haccesses : slotAccesses b₃.code = slotAccesses b.code := by
    have h₂ := (unboxing_keepsSlots stretches).slotAccesses_eq
    have h₃ := (arrayRevision_keepsSlots b₂).slotAccesses_eq
    rw [hbehind₂, hunboxing.before, hcode₁] at h₂
    rw [hbehind₃, before_arrayRevision, h₂] at h₃
    exact h₃
  have htables : b₃.slots = b.slots ∧ b₃.epilogue = b.epilogue ∧
      b₃.singleAssignment = b.singleAssignment := by
    subst hb₃ hb₂ hb₁
    exact ⟨rfl, rfl, rfl⟩
  have hnumbers := numberIn?_congr htables.1 htables.2.1 haccesses
  have hnames : b₃.NamesSlots := by
    refine ⟨?_, ?_, ?_⟩
    · rw [haccesses, htables.1]
      exact h.accesses
    · rw [htables.1, htables.2.1]
      exact h.exit
    · rw [htables.1, htables.2.2]
      exact h.marked
  obtain ⟨hcode, hcompacted⟩ := compactSlots_code hnames
  rw [hb₄]
  refine ⟨?_, ?_, ?_, ?_⟩
  · rw [← hcode₁, ← hunboxing.before, revision, Revision.before, Revision.before, List.map_map]
    rfl
  · rw [behind_revision, hbehind₂, hcode, hnumbers, ← hb₃, copyArrays, List.filterMap_map]
    subst hb₃ hb₂ hb₁
    rfl
  · have h₂ : UsesDefined b₂.code :=
      hbehind₂ ▸ (hunboxing.sound (hcode₁ ▸ hnodup) (hcode₁ ▸ huses)).usesDefined
    have h₃ : UsesDefined b₃.code := hbehind₃ ▸ (arrayRevision_sound h₂).usesDefined
    rw [hcode, ← behind_slotRevision]
    exact (slotRevision_sound h₃ hnames.accesses).usesDefined
  · have htable : ∀ slot, b₃.slot? slot = b.slot? slot := fun slot => by
      rw [Body.slot?, htables.1, Body.slot?]
    exact ⟨fun hnumber => (hcompacted.table (hnumbers ▸ hnumber)).trans (htable _),
      by rw [hcompacted.marked, hnumbers, htables.2.2], by rw [hcompacted.exit, hnumbers, htables.2.1],
      numberIn?_injective, unread_of_number_none⟩

theorem temps_normalizeTypes (b : Body) : b.normalizeTypes.1.temps = (typeConstructions b).1.temps := by
  dsimp only [Body.normalizeTypes, compactSlots]
  split <;> rfl

/-- The pass touches the code, the slots and the storage of temps. -/
theorem normalizeTypes_tables (b : Body) : b.normalizeTypes.1 = { b with
    code := b.normalizeTypes.1.code
    temps := b.normalizeTypes.1.temps
    slots := b.normalizeTypes.1.slots
    singleAssignment := b.normalizeTypes.1.singleAssignment
    epilogue := b.normalizeTypes.1.epilogue } := by
  dsimp only [Body.normalizeTypes, compactSlots]
  split <;> rfl

/-- What the pass does to the instruction at a position. -/
inductive Edit (b : Body) (r : Revision) (n : Nat) : Instr → Option Instr → Prop
  | same {i : Instr} (hslot : i.slotAccess? = none) : Edit b r n i (some i)
  | load {t : Temp} {slot number : Slot} (h : numberIn? b slot = some number) :
      Edit b r n (.define t (.loadSlot slot)) (some (.define t (.loadSlot number)))
  | store {t : Temp} {slot number : Slot} (h : numberIn? b slot = some number) :
      Edit b r n (.perform (.storeSlot slot t)) (some (.perform (.storeSlot number t)))
  | drop {t : Temp} {slot : Slot} (h : numberIn? b slot = none) :
      Edit b r n (.perform (.storeSlot slot t)) none
  | array {t source : Temp} (h : (b.storageOf source).isArray = true) :
      Edit b r n (.define t (.normalizeIterable source)) (some (.define t (.copy source)))
  | box {boxed source : Temp} (h : (b.storageOf source).isUnboxed = true) :
      Edit b r n (.define boxed (.coerce .toObject source)) none
  /-- The boxing in front goes. -/
  | unbox {receiver boxed source : Temp} {className field : String} {ty : ValueType} {m : Nat}
      (hty : Storage.ofType ty = b.storageOf source) (h : (b.storageOf source).isUnboxed = true)
      (hn : n = m + 1) (hm : r[m]? = some (.define boxed (.coerce .toObject source), none)) :
      Edit b r n (.perform (.storeField receiver className field (some ty) boxed))
        (some (.perform (.storeField receiver className field (some ty) source)))

/-- An entry of the unboxing: most instructions stay, and a store without its boxing stands right
behind it. -/
def Spot (stretches : List Stretch) (n : Nat) (p : Instr × Option Instr) : Prop :=
  p.2 = some p.1 ∨ ∃ receiver boxed source className field ty,
    Stretch.bare receiver boxed source className field ty ∈ stretches ∧
    (p = (.define boxed (.coerce .toObject source), none) ∨
      p = (.perform (.storeField receiver className field (some ty) boxed),
        some (.perform (.storeField receiver className field (some ty) source))) ∧
      ∃ m, n = m + 1 ∧ (stretches.flatMap Stretch.entries)[m]?
        = some (.define boxed (.coerce .toObject source), none))

theorem Spot.cons (h : Spot stretches n p) (stretch : Stretch) :
    Spot (stretch :: stretches) (stretch.entries.length + n) p := by
  rcases h with hsame | ⟨receiver, boxed, source, className, field, ty, hmem, hcase⟩
  · exact .inl hsame
  refine .inr ⟨receiver, boxed, source, className, field, ty, .tail _ hmem, hcase.imp_right ?_⟩
  rintro ⟨hp, m, rfl, hm⟩
  refine ⟨hp, stretch.entries.length + m, rfl, ?_⟩
  rw [List.flatMap_cons, List.getElem?_append_right (Nat.le_add_right ..), Nat.add_sub_cancel_left, hm]

theorem spot_of_getElem?
    (h : (stretches.flatMap Stretch.entries)[n]? = some p) : Spot stretches n p := by
  induction stretches generalizing n with
  | nil => cases h
  | cons stretch stretches ih =>
    by_cases hn : n < stretch.entries.length
    · rw [List.flatMap_cons, List.getElem?_append_left hn] at h
      cases stretch with
      | keep i =>
        obtain rfl : n = 0 := Nat.lt_one_iff.1 hn
        cases h
        exact .inl rfl
      | bare receiver boxed source className field ty =>
        refine .inr ⟨receiver, boxed, source, className, field, ty, .head _, ?_⟩
        match n with
        | 0 =>
          cases h
          exact .inl rfl
        | 1 =>
          cases h
          exact .inr ⟨rfl, 0, rfl, rfl⟩
        | n + 2 => exact absurd hn (by simp [Stretch.entries])
    · obtain ⟨m, rfl⟩ := Nat.exists_eq_add_of_le (Nat.le_of_not_lt hn)
      rw [List.flatMap_cons, List.getElem?_append_right (Nat.le_add_right ..), Nat.add_sub_cancel_left] at h
      exact (ih h).cons stretch

theorem finish_edit (h : b.NamesSlots) (hi : i ∈ b.code) (r : Revision) (n : Nat) :
    Edit b r n i (finish b i) := by
  unfold finish
  rcases arrayCopy?_getD (typeConstructions b).1 i with heq | ⟨result, source, rfl, harray, heq⟩
  · rw [heq]
    unfold renumber?
    split
    · have hload := mem_slotAccesses_of_load hi
      obtain ⟨number, hnumber⟩ :=
        exists_number_of_kept (kept_of_loaded (h.accesses _ hload) (.inl hload))
      rw [hnumber]
      exact .load hnumber
    · rename_i slot value
      cases hnumber : numberIn? b slot with
      | none => exact .drop hnumber
      | some number => exact .store hnumber
    · rename_i hload hstore
      refine .same ?_
      unfold Instr.slotAccess?
      split
      · exact absurd rfl (hload _ _)
      · exact absurd rfl (hstore _ _)
      · rfl
  · rw [heq]
    exact .array (storageOf_eq (.inr harray) ▸ harray)

theorem edit_of_getElem? (h : b.NamesSlots) (hunboxing : Unboxing (typeConstructions b).1 stretches)
    (hentry : (revision b stretches)[n]? = some (i, o)) : Edit b (revision b stretches) n i o := by
  obtain ⟨p, hp, heq⟩ := Option.map_eq_some_iff.1 (List.getElem?_map.symm.trans hentry)
  obtain ⟨rfl, rfl⟩ := Prod.mk.inj heq
  rcases spot_of_getElem? hp with hsame | ⟨receiver, boxed, source, className, field, ty, hbare, hcase⟩
  · rw [hsame]
    exact finish_edit h (hunboxing.before ▸ Revision.mem_before (List.mem_of_getElem? hp)) _ n
  obtain ⟨hunboxed, -, hty⟩ := hunboxing.fits _ hbare
  have hstorage := storageOf_eq (.inl hunboxed)
  rw [hstorage] at hunboxed hty
  rcases hcase with rfl | ⟨rfl, m, hn, hm⟩
  · exact .box hunboxed
  · refine .unbox hty hunboxed hn ?_
    rw [revision, List.getElem?_map, hm]
    rfl

/-! ### Corresponding memories -/

theorem Edit.result?_eq (h : Edit b r n i (some i')) :
    i'.result? = i.result? := by
  cases h <;> rfl

/-- What stays accesses slots under their new numbers. -/
theorem Edit.numbered (h : Edit b r n i (some i')) {access : Bool × Slot}
    (haccess : i'.slotAccess? = some access) : ∃ slot, numberIn? b slot = some access.2 := by
  cases h with
  | same hslot => cases hslot.symm.trans haccess
  | load hnumber => exact Option.some.inj haccess ▸ ⟨_, hnumber⟩
  | store hnumber => exact Option.some.inj haccess ▸ ⟨_, hnumber⟩
  | array => cases haccess
  | unbox => cases haccess

section Memories

variable {σ σ' : Memory V W} {t : Temp} {slot number : Slot}

theorem corresponds_write (h : b.Corresponds b' σ σ') (a : Answer V W A O) :
    b.Corresponds b' (σ.write a) (σ'.write a) :=
  ⟨rfl, fun t ht => Memory.temps_write_congr (h.temps t ht) a, h.slots⟩

theorem corresponds_load (h : b.Corresponds b' σ σ') (hnumber : numberIn? b slot = some number) :
    b.Corresponds b' (σ.set t (σ.slots slot)) (σ'.set t (σ'.slots number)) := by
  refine ⟨h.world, fun u hu => ?_, h.slots⟩
  by_cases heq : u = t
  · rw [heq, Memory.temps_set_self, Memory.temps_set_self, h.slots hnumber]
  · rw [Memory.temps_set_of_ne _ _ heq, Memory.temps_set_of_ne _ _ heq, h.temps u hu]

theorem corresponds_store (h : b.Corresponds b' σ σ') (hnumber : numberIn? b slot = some number)
    (ht : σ'.temps t = σ.temps t) :
    b.Corresponds b' { σ with slots := Function.update σ.slots slot (σ.temps t) }
      { σ' with slots := Function.update σ'.slots number (σ'.temps t) } := by
  refine ⟨h.world, h.temps, fun {slot₁ number₁} hnumber₁ => ?_⟩
  by_cases heq : slot₁ = slot
  · obtain rfl : number = number₁ := Option.some.inj (hnumber.symm.trans (heq ▸ hnumber₁))
    simp only [heq, Function.update_self, ht]
  · have hne : number₁ ≠ number := fun heq' => heq (numberIn?_injective hnumber₁ (heq' ▸ hnumber))
    simp only [Function.update_of_ne heq, Function.update_of_ne hne, h.slots hnumber₁]

/-- A slot that nobody loads may hold anything. -/
theorem corresponds_drop (h : b.Corresponds b' σ σ') (hnumber : numberIn? b slot = none) (v : V) :
    b.Corresponds b' { σ with slots := Function.update σ.slots slot v } σ' := by
  refine ⟨h.world, h.temps, fun {slot₁ number₁} hnumber₁ => ?_⟩
  have hne : slot₁ ≠ slot := fun heq => by cases (heq ▸ hnumber).symm.trans hnumber₁
  simp only [Function.update_of_ne hne, h.slots hnumber₁]

/-- A temp that is defined no more may hold anything. -/
theorem corresponds_value (h : b.Corresponds b' σ σ') (ht : t ∉ definedTemps b'.code) (v : V) :
    b.Corresponds b' (σ.write (.value t v σ.world : Answer V W A O)) σ' :=
  ⟨h.world, fun u hu => (h.temps u hu).trans
    (σ.temps_set_of_ne v fun heq : u = t => ht (heq ▸ hu)).symm, h.slots⟩

end Memories

/-! ### Runs -/

section Runs

variable {I : Answers V W A O} {Matches : Storage → V → Prop} {box : V → V} {r : Revision}
  {σ₀ σ σ' : Memory V W}

/-- What two memories have in common in front of a position. In front of a store that has lost its
boxing, one of them has the box. -/
structure Related (b b' : Body) (r : Revision) (Matches : Storage → V → Prop) (box : V → V)
    (n : Nat) (σ σ' : Memory V W) : Prop extends b.Corresponds b' σ σ' where
  boxed : ∀ {receiver boxed source className field ty},
    r[n]? = some (.perform (.storeField receiver className field (some ty) boxed),
      some (.perform (.storeField receiver className field (some ty) source))) → boxed ≠ source →
    σ.temps boxed = box (σ.temps source) ∧ Matches (b.storageOf source) (σ.temps source)

variable (hedit : ∀ {n i o}, r[n]? = some (i, o) → Edit b r n i o)

include hedit

/-- A store that has lost its boxing stands behind it. -/
theorem exists_boxing {receiver boxed source : Temp} {className field : String} {ty : ValueType}
    (hentry : r[n]? = some (.perform (.storeField receiver className field (some ty) boxed),
      some (.perform (.storeField receiver className field (some ty) source)))) (hne : boxed ≠ source) :
    ∃ m, n = m + 1 ∧ r[m]? = some (.define boxed (.coerce .toObject source), none) := by
  cases hedit hentry with
  | same => exact absurd rfl hne
  | unbox _ _ hn hm => exact ⟨_, hn, hm⟩

theorem related_after {i' : Instr} (hentry : r[n]? = some (i, some i'))
    (h : b.Corresponds b' σ σ') : Related b b' r Matches box (n + 1) σ σ' ∧
      ∀ m l, r[m]? = some (.label l, some (.label l)) → Related b b' r Matches box m σ σ' := by
  refine ⟨⟨h, fun hstore hne => ?_⟩, fun m l hlabel => ⟨h, fun hstore => ?_⟩⟩
  · obtain ⟨m, hn, hm⟩ := exists_boxing hedit hstore hne
    obtain rfl := Nat.succ.inj hn
    cases hentry.symm.trans hm
  · cases hlabel.symm.trans hstore

/-- A dropped definition is gone. -/
theorem not_defined_of_dropped (hcode : ReadsFollow r.before) {t : Temp} (hentry : r[n]? = some (i, none))
    (hresult : i.result? = some t) : t ∉ definedTemps r.behind := by
  intro ht
  obtain ⟨i', hi', hresult'⟩ := List.mem_filterMap.1 ht
  obtain ⟨k, hk⟩ := List.mem_iff_getElem?.1 hi'
  obtain ⟨m, j, hm, -⟩ := Revision.exists_of_behind hk
  obtain rfl := hcode.once (Revision.getElem?_before hentry) (Revision.getElem?_before hm) hresult
    ((hedit hm).result?_eq.symm.trans hresult')
  cases hentry.symm.trans hm

/-- The code behind the pass follows the code in front of it. -/
theorem follows (hI : I.Respects Matches box) (hcode : ReadsFollow r.before)
    (huses : UsesDefined r.behind) (hbefore : r.before = b.code) (hbehind : r.behind = b'.code)
    (hmatched : I.Matched Matches b σ₀) : r.Follows I σ₀ (Related b b' r Matches box) where
  labels i o hmem := by
    obtain ⟨n, hentry⟩ := List.mem_iff_getElem?.1 hmem
    cases hedit hentry <;> rfl
  drop {past n σ σ' i} hrun h hentry := by
    have hmatch : ∀ t ∈ i.uses, Matches (b.storageOf t) (σ.temps t) :=
      hmatched (hbefore ▸ hrun) (hbefore ▸ Revision.getElem?_before hentry)
    cases hedit hentry with
    | @drop t slot hnumber =>
      refine ⟨_, ⟨corresponds_drop h.toCorresponds hnumber (σ.temps t), fun hstore hne => ?_⟩,
        fun labels actions ρ next => ⟨fun htakes => ?_, ?_⟩⟩
      · obtain ⟨m, hn, hm⟩ := exists_boxing hedit hstore hne
        obtain rfl := Nat.succ.inj hn
        cases hentry.symm.trans hm
      · cases htakes with
        | store => exact ⟨rfl, rfl, rfl⟩
        | answer hslot => cases hslot
      · rintro ⟨rfl, rfl, rfl⟩
        exact .store
    | @box boxed source hunboxed =>
      have hboxes : ∀ {labels a}, I labels (.define boxed (.coerce .toObject source))
          [σ.temps source] σ.world a ↔ a = .value boxed (box (σ.temps source)) σ.world :=
        hI.boxes hunboxed (hmatch source (.head _))
      have hgone := not_defined_of_dropped hedit hcode hentry rfl
      refine ⟨_, ⟨corresponds_value (A := A) (O := O) h.toCorresponds (hbehind ▸ hgone)
        (box (σ.temps source)),
        fun hstore hne => ?_⟩, fun labels actions ρ next => ?_⟩
      · obtain ⟨m, hn, hm⟩ := exists_boxing hedit hstore hne
        obtain rfl := Nat.succ.inj hn
        cases hentry.symm.trans hm
        have hsource := σ.temps_set_of_ne (box (σ.temps source)) hne.symm
        exact ⟨(σ.temps_set_self boxed _).trans (congrArg box hsource.symm),
          hsource.symm ▸ hmatch source (.head _)⟩
      · rw [Answers.takes_iff rfl]
        constructor
        · rintro ⟨a, ha, rfl, rfl, rfl⟩
          obtain rfl := hboxes.1 ha
          exact ⟨rfl, rfl, rfl⟩
        · rintro ⟨rfl, rfl, rfl⟩
          exact ⟨_, hboxes.2 rfl, rfl, rfl, rfl⟩
  keep {past n σ σ' i i'} hrun h hentry labels actions next := by
    have hmatch : ∀ t ∈ i.uses, Matches (b.storageOf t) (σ.temps t) :=
      hmatched (hbefore ▸ hrun) (hbefore ▸ Revision.getElem?_before hentry)
    have hsame : ∀ t ∈ i'.uses, σ'.temps t = σ.temps t := fun t ht => by
      refine h.temps t (hbehind ▸ ?_)
      exact ((List.take_sublist ..).filterMap _).subset
        (huses _ i' (Revision.getElem?_behind hentry) ht)
    suffices halike : Answers.Alike (b.Corresponds b') (I.Takes labels i σ actions · next)
        (I.Takes labels i' σ' actions · next) from halike.mono fun _ _ => related_after hedit hentry
    have hwrite := fun a : Answer V W A O => corresponds_write h.toCorresponds a
    cases hedit hentry with
    | same hslot =>
      refine Answers.alike_of_answers hslot hslot (fun a => ?_) hwrite
      rw [List.map_congr_left hsame, h.world]
    | @load t slot number hnumber =>
      have hload := corresponds_load (t := t) h.toCorresponds hnumber
      constructor <;> rintro _ (_ | _ | hslot)
      · exact ⟨_, .load, hload⟩
      · cases hslot
      · exact ⟨_, .load, hload⟩
      · cases hslot
    | store hnumber =>
      have hstore := corresponds_store h.toCorresponds hnumber (hsame _ (.head _))
      constructor <;> rintro _ (_ | _ | hslot)
      · exact ⟨_, .store, hstore⟩
      · cases hslot
      · exact ⟨_, .store, hstore⟩
      · cases hslot
    | @array t source harray =>
      refine Answers.alike_of_answers rfl rfl (fun a => ?_) hwrite
      show I labels _ [σ'.temps source] σ'.world a ↔ I labels _ [σ.temps source] σ.world a
      rw [hsame source (.head _), h.world, hI.copies, hI.iterates harray (hmatch source (.head _))]
    | @unbox receiver boxed source className field ty m hty hunboxed hn hm =>
      have hne : boxed ≠ source := by
        rintro rfl
        have hboxing := Revision.getElem?_before hm
        exact Nat.lt_irrefl m (hcode.behind hboxing hboxing rfl (.head _))
      obtain ⟨hbox, hbare⟩ := h.boxed hentry hne
      refine Answers.alike_of_answers rfl rfl (fun a => ?_) hwrite
      show I labels _ [σ'.temps receiver, σ'.temps source] σ'.world a ↔
        I labels _ [σ.temps receiver, σ.temps boxed] σ.world a
      rw [hsame receiver (.head _), hsame source (.tail _ (.head _)), h.world, hbox]
      exact hI.stores (hty ▸ hunboxed) (hty ▸ hbare)

end Runs

end TypeNormalization

/-- Type normalization keeps the meaning of a body. From corresponding memories both bodies come to
the same actions and to the same outcomes, with corresponding memories again. What the pass has left
reads neither a temp that it has dropped nor a slot without a number. Besides the code, the pass
touches the slots, which it numbers anew throughout, and the storage of constructed objects. -/
theorem Body.normalizeTypes_keepsMeaning (b : Body) (hnodup : (definedTemps b.code).Nodup)
    (huses : UsesDefined b.code) (hslots : b.NamesSlots) {I : Answers V W A O}
    {Matches : Storage → V → Prop} {box : V → V} (hI : I.Respects Matches box) {σ σ' : Memory V W}
    (hmatched : I.Matched Matches b σ) (hσ : b.Corresponds b.normalizeTypes.1 σ σ') :
    (∀ past, Answers.Alike (b.Corresponds b.normalizeTypes.1)
      (fun τ => ∃ n, I.Runs b.code σ past n τ)
      fun τ' => ∃ n, I.Runs b.normalizeTypes.1.code σ' past n τ') ∧
    (∀ actions o, Answers.Alike (b.Corresponds b.normalizeTypes.1)
      (I.Finishes b.code σ actions o) (I.Finishes b.normalizeTypes.1.code σ' actions o)) ∧
    UsesDefined b.normalizeTypes.1.code ∧
    (∀ access ∈ slotAccesses b.normalizeTypes.1.code, ∃ slot, numberIn? b slot = some access.2) ∧
    b.CompactedTo b.normalizeTypes.1 ∧
    (∀ t, b.normalizeTypes.1.storageOf t = b.storageOf t ∨
      ∃ className args, .define t (.newClass className args) ∈ b.code ∧
        b.normalizeTypes.1.storageOf t = .reference (.userClass className)) ∧
    b.normalizeTypes.1 = { b with
      code := b.normalizeTypes.1.code
      temps := b.normalizeTypes.1.temps
      slots := b.normalizeTypes.1.slots
      singleAssignment := b.normalizeTypes.1.singleAssignment
      epilogue := b.normalizeTypes.1.epilogue } := by
  obtain ⟨stretches, hunboxing⟩ := exists_unboxing (typeConstructions b).1
  obtain ⟨hbefore, hbehind, huses', hcompacted⟩ := normalizeTypes_code hslots hnodup huses hunboxing
  generalize hr : revision b stretches = r at hbefore hbehind
  have hedit : ∀ {n i o}, r[n]? = some (i, o) → Edit b r n i o :=
    fun hentry => by subst hr; exact edit_of_getElem? hslots hunboxing hentry
  have hfollows : r.Follows I σ (Related b b.normalizeTypes.1 r Matches box) :=
    follows hedit hI (hbefore ▸ .of_usesDefined hnodup huses) (hbehind ▸ huses') hbefore hbehind hmatched
  have hstart : Related b b.normalizeTypes.1 r Matches box 0 σ σ' :=
    ⟨hσ, fun hstore hne => by obtain ⟨m, hn, -⟩ := exists_boxing hedit hstore hne; cases hn⟩
  have hcorresponds : ∀ τ τ' : Memory V W, (∃ n, Related b b.normalizeTypes.1 r Matches box n τ τ') →
      b.Corresponds b.normalizeTypes.1 τ τ' := by
    rintro τ τ' ⟨n, h⟩
    exact h.toCorresponds
  refine ⟨fun past => ?_, fun actions o => ?_, huses', fun access haccess => ?_, hcompacted, ?_, ?_⟩
  · exact hbefore ▸ hbehind ▸ (hfollows.runs_alike hstart past).mono hcorresponds
  · exact hbefore ▸ hbehind ▸ (hfollows.finishes_alike hstart actions o).mono hcorresponds
  · obtain ⟨i', hi', haccess'⟩ := List.mem_filterMap.1 haccess
    obtain ⟨k, hk⟩ := List.mem_iff_getElem?.1 (hbehind ▸ hi')
    obtain ⟨n, i, hentry, -⟩ := Revision.exists_of_behind hk
    exact (hedit hentry).numbered haccess'
  · intro t
    rw [Body.storageOf, temps_normalizeTypes]
    exact storageOf_typeConstructions b t
  · exact normalizeTypes_tables b

/-! ### Numbers and boxes -/

/-- What is to be known of a body with numbers, bare or in boxes (`true`): calls and field stores
look at the numbers only. -/
def boxedNumbers : Answers (Nat × Bool) Unit (String × List Nat) Nat := fun _ i values _ answer =>
  answer = {
    actions := match i with
      | .define _ (.callMember _ member _) => [(member, values.map Prod.fst)]
      | .perform (.storeField _ _ field _ _) => [(field, values.map Prod.fst)]
      | _ => []
    writes := i.result?.toList.map (·, match i, values with
      | .define _ (.coerce .toObject _), [v] => (v.1, true)
      | .define _ (.copy _), [v] => v
      | .define _ (.normalizeIterable _), [v] => v
      | .define _ (.literal _), _ => (1, false)
      | _, _ => (0, false))
    world := ()
    next := match i, values with
      | .branch l, _ => .goto l
      | .ret _, [v] => .finish v.1
      | _, _ => .fall }

/-- A bare number is not in a box. -/
def BareNumber (storage : Storage) (v : Nat × Bool) : Prop :=
  storage.isUnboxed = true → v.2 = false

theorem boxedNumbers_respects : boxedNumbers.Respects BareNumber fun v => (v.1, true) where
  copies := .rfl
  boxes _ _ := .rfl
  stores _ _ := .rfl
  iterates _ _ := .rfl

/-- In the beginning all is a bare zero. -/
def zeroMemory : Memory (Nat × Bool) Unit :=
  ⟨fun _ => (0, false), fun _ => (0, false), ()⟩

theorem boxedNumbers_matched : boxedNumbers.Matched BareNumber improvable zeroMemory := by
  have hresult : ∀ i ∈ improvable.code, i.result? = some ⟨0⟩ →
      i = .define ⟨0⟩ (.literal (.number (.ofNat 1))) := by decide
  have hread : ∀ i ∈ improvable.code, ∀ t ∈ i.uses, (improvable.storageOf t).isUnboxed = true → t = ⟨0⟩ := by
    decide
  have hstep : ∀ {labels i σ actions τ next}, boxedNumbers.Takes labels i σ actions τ next →
      i ∈ improvable.code → (σ.temps ⟨0⟩).2 = false → (τ.temps ⟨0⟩).2 = false := by
    intro labels i σ actions τ next htakes hi hσ
    cases htakes with
    | @load t slot =>
      have hne : (⟨0⟩ : Temp) ≠ t := fun heq => by cases hresult _ hi (congrArg some heq.symm)
      rwa [σ.temps_set_of_ne _ hne]
    | store => exact hσ
    | answer _ h =>
      subst h
      cases hdefined : i.result? with
      | none => simpa [Memory.write, hdefined] using hσ
      | some t =>
        by_cases heq : t = ⟨0⟩
        · subst heq
          rw [hresult i hi hdefined]
          rfl
        · simpa [Memory.write, hdefined, Function.update_of_ne (Ne.symm heq)] using hσ
  have hrun : ∀ {past n σ}, boxedNumbers.Runs improvable.code zeroMemory past n σ →
      (σ.temps ⟨0⟩).2 = false := by
    intro past n σ h
    induction h with
    | start => rfl
    | fall _ hi htakes ih => exact hstep htakes (List.mem_of_getElem? hi) ih
    | goto _ hi htakes _ ih => exact hstep htakes (List.mem_of_getElem? hi) ih
  intro past n σ i h hi t ht hunboxed
  obtain rfl := hread i (List.mem_of_getElem? hi) t ht hunboxed
  exact hrun h

theorem normalizeTypes_keepsMeaning_improvable :
    improvable.normalizeTypes.2 = 4 ∧ ∀ actions outcome,
      Answers.Alike (improvable.Corresponds improvable.normalizeTypes.1)
        (boxedNumbers.Finishes improvable.code zeroMemory actions outcome)
        (boxedNumbers.Finishes improvable.normalizeTypes.1.code zeroMemory actions outcome) :=
  ⟨by decide +kernel, (Body.normalizeTypes_keepsMeaning improvable (by decide) (by decide)
    ⟨by decide, nofun, by decide⟩ boxedNumbers_respects boxedNumbers_matched
    ⟨rfl, fun _ _ => rfl, fun _ => rfl⟩).2.1⟩

end ScriptLowering
