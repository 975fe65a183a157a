import ScriptLowering.Proofs.Course.Lowered

/-!
# Compiled code is well typed

The target machine does not check representations: an operand that is a bare double where an object
is expected corrupts memory. So every instruction of a compiled body has operands of the shapes that
it demands (`Instr.WellTyped`). The lowering makes sure of this while it emits instructions, and
every pass keeps it: copies take any storage, bare values go only into fields of just their type,
constructed objects are still objects when they are typed, slots keep their storages under new
numbers, and an argument array that is taken apart holds objects.

## Main results

* `Body.optimize_typed`: the passes keep a body typed;
* `Function.compile_wellTyped`: compiled code is well typed.
-/

namespace ScriptLowering

variable {shape : Shape} {storage : Storage}

/-! ### Storages -/

theorem Layout.Has.any {L : Layout} {t : Temp} (h : L.Has t shape) : L.Has t .any := by
  obtain ⟨storage, hstorage, hshape⟩ := h
  exact ⟨storage, hstorage, Shape.isKnown_of_admits hshape⟩

/-- An instance of a class has the shapes of an object. -/
theorem Shape.admits_userClass (h : storage.isInstance)
    (hshape : shape.admits storage) (className : String) :
    shape.admits (.reference (.userClass className)) = true := by
  have hkind : storage = .object ∨ ∃ name, storage = .reference (.userClass name) := by
    rcases Bool.or_eq_true_iff.1 h with hobject | hclass
    · exact .inl (beq_iff_eq.1 hobject)
    · obtain ⟨name, hname⟩ := Option.isSome_iff_exists.1 hclass
      obtain ⟨kind, ty⟩ := storage
      unfold Storage.className? at hname
      split at hname
      · rename_i hkind hty
        obtain rfl : kind = .reference := hkind
        obtain rfl : ty = .userClass _ := hty
        exact .inr ⟨_, rfl⟩
      · cases hname
  rcases hkind with rfl | ⟨name, rfl⟩
  · cases shape <;> first | rfl | cases hshape
  · cases shape <;> first | rfl | cases hshape

/-- An instance is not a bare value. -/
theorem Storage.bare_of_isInstance (h : storage.isInstance) :
    storage.isUnboxedDouble = false ∧ storage.isUnboxedBool = false := by
  have hkind : storage.isUnboxed = false := by
    rcases Bool.or_eq_true_iff.1 h with hobject | hclass
    · rw [beq_iff_eq.1 hobject]
      rfl
    · obtain ⟨kind, ty⟩ := storage
      cases kind with
      | unboxed => cases hclass
      | _ => rfl
  simp [isUnboxedDouble, isUnboxedBool, hkind]

namespace Body

variable {b b' : Body}
variable {i : Instr} {t : Temp}

theorem storageOf_of_layout {storage : Storage} (h : b.layout.temp t = some storage) :
    b.storageOf t = storage := by
  have hentry : b.temps[t.index]? = some (some storage) := Option.join_eq_some_iff.1 h
  rw [storageOf, hentry]
  rfl

/-- The temps and slots are in order, every instruction is well typed, and every result has a
storage. -/
structure Typed (b : Body) : Prop extends Consistent b where
  wellTyped : b.WellTyped
  stored : ∀ t ∈ definedTemps b.code, b.layout.Has t .any

theorem ReworkedTo.definedTemps_subset (h : b.ReworkedTo b') :
    definedTemps b'.code ⊆ definedTemps b.code := by
  intro t ht
  obtain ⟨i', hi', hresult⟩ := List.mem_filterMap.1 ht
  obtain ⟨i, hi, hbecomes⟩ := exists_of_mem_sublistForall₂ h.code hi'
  exact List.mem_filterMap.2 ⟨i, hi, hbecomes.result?_eq ▸ hresult⟩

/-- A revision that keeps the tables keeps a body typed if what it puts into the code is. -/
theorem Typed.of_revision {r : Revision} (h : b.Typed) (hbefore : r.before = b.code)
    (htends : b.Tends { b with code := r.behind })
    (hnew : ∀ i i', (i, some i') ∈ r → i.WellTyped b.layout → i'.WellTyped b.layout) :
    Typed { b with code := r.behind } := by
  obtain ⟨hconsistent, hreworked⟩ := htends h.toConsistent
  refine ⟨hconsistent, fun i' hi' => ?_, fun t ht => h.stored t ?_⟩
  · obtain ⟨⟨i, o⟩, hmem, rfl⟩ := List.mem_filterMap.1 hi'
    exact hnew i i' hmem (h.wellTyped i (hbefore ▸ Revision.mem_before hmem))
  · exact hreworked.definedTemps_subset ht

/-! ### Coercions -/

theorem reuseCoercions_typed (h : b.Typed) : b.reuseCoercions.1.Typed := by
  obtain ⟨r, hbefore, hbehind, hedits⟩ := CoercionReuse.exists_revision b
  have heq : b.reuseCoercions.1 = { b with code := r.behind } := by
    rw [hbehind]
    rfl
  have htends := b.reuseCoercions_tends
  rw [heq] at htends ⊢
  refine h.of_revision hbefore htends fun i i' hmem hi => ?_
  obtain ⟨front, rest, hr⟩ := List.mem_iff_append.1 hmem
  cases hedits hr with
  | keep => exact hi
  | @reuse kind source previous result hprevious =>
    have hdefined : previous ∈ definedTemps r.before := by
      rw [hr, Revision.before_append, definedTemps_append]
      exact List.mem_append_left _ hprevious
    refine ⟨fun d hd => ?_, trivial⟩
    obtain rfl := List.mem_singleton.1 hd
    exact h.stored _ (hbefore ▸ hdefined)

/-! ### Constructions -/

open TypeNormalization

/-- Two instructions that define the same temp are one. -/
theorem Consistent.eq_of_result (h : b.Consistent) {j : Instr} (hi : i ∈ b.code)
    (hj : j ∈ b.code) (hti : i.result? = some t) (htj : j.result? = some t) : i = j := by
  obtain ⟨n, hn⟩ := List.mem_iff_getElem?.1 hi
  obtain ⟨m, hm⟩ := List.mem_iff_getElem?.1 hj
  obtain rfl := index_unique_of_count (List.nodup_iff_count_le_one.1 h.definedOnce t) hn hm hti htj
  exact Option.some.inj (hn.symm.trans hm)

theorem typeConstructions_typed (h : b.Typed) : (typeConstructions b).1.Typed := by
  have hlayout : ∀ t, (typeConstructions b).1.layout.temp t = b.layout.temp t ∨
      ∃ className args, .define t (.newClass className args) ∈ b.code ∧
        (typeConstructions b).1.layout.temp t = some (.reference (.userClass className)) := by
    intro t
    rcases foldl_typeConstruction b.code (b.temps, 0) t with hsame | ⟨className, args, hmem, htyped⟩
    · exact .inl (congrArg Option.join hsame)
    · exact .inr ⟨className, args, hmem, congrArg Option.join htyped⟩
  have hhas : ∀ {t shape}, b.layout.Has t shape → (typeConstructions b).1.layout.Has t shape := by
    rintro t shape ⟨storage, hstorage, hshape⟩
    rcases hlayout t with hsame | ⟨className, args, hmem, htyped⟩
    · exact ⟨storage, hsame.trans hstorage, hshape⟩
    · obtain ⟨storage', hstorage', hinstance⟩ := (h.wellTyped _ hmem).storage
      obtain rfl := Option.some.inj (hstorage.symm.trans hstorage')
      exact ⟨_, htyped, Shape.admits_userClass hinstance hshape className⟩
  refine ⟨(typeConstructions_tends b h.toConsistent).1, fun i hi => ⟨fun d hd => ?_, ?_⟩,
    fun t ht => hhas (h.stored t ht)⟩
  · exact hhas ((h.wellTyped i hi).operands d hd)
  · have hfits := (h.wellTyped i hi).storage
    unfold Instr.FitsStorage at hfits ⊢
    split at hfits
    · rename_i result slot
      obtain ⟨storage, hheld, hresult⟩ := hfits
      rcases hlayout result with hsame | ⟨className, args, hmem, -⟩
      · exact ⟨storage, hheld, hsame.trans hresult⟩
      · cases h.toConsistent.eq_of_result hi hmem rfl rfl
    · rename_i result className args
      obtain ⟨storage, hresult, hinstance⟩ := hfits
      rcases hlayout result with hsame | ⟨className, args, -, htyped⟩
      · exact ⟨storage, hsame.trans hresult, hinstance⟩
      · exact ⟨_, htyped, rfl⟩
    · rename_i slot value
      obtain ⟨held, stored, hheld, hstored, hdouble, hbool⟩ := hfits
      rcases hlayout value with hsame | ⟨className, args, hmem, htyped⟩
      · exact ⟨held, stored, hheld, hsame.trans hstored, hdouble, hbool⟩
      · obtain ⟨storage, hstorage, hinstance⟩ := (h.wellTyped _ hmem).storage
        obtain rfl := Option.some.inj (hstored.symm.trans hstorage)
        obtain ⟨hdouble', hbool'⟩ := Storage.bare_of_isInstance hinstance
        exact ⟨held, _, hheld, htyped, hdouble'.symm.trans hdouble, hbool'.symm.trans hbool⟩
    · trivial

/-! ### Field stores and arrays -/

theorem unboxFieldStores_typed (h : b.Typed) : (unboxFieldStores b).1.Typed := by
  obtain ⟨stretches, hunboxing⟩ := exists_unboxing b
  have htends := unboxFieldStores_tends b
  rw [hunboxing.result] at htends ⊢
  refine h.of_revision hunboxing.before htends fun i i' hmem hi => ?_
  rcases Unboxing.mem_some hmem with rfl | ⟨receiver, boxed, source, className, field, ty, hbare, rfl, rfl⟩
  · exact hi
  · obtain ⟨hunboxed, -, htype⟩ := hunboxing.fits _ hbare
    have hboxing := Revision.mem_before (Unboxing.mem_entries_of_bare hbare).1
    rw [hunboxing.before] at hboxing
    obtain ⟨storage, hstorage, -⟩ := (h.wellTyped _ hboxing).operands (source, .unboxed) (.head _)
    rw [storageOf_of_layout hstorage] at hunboxed htype
    refine ⟨fun d hd => ?_, trivial⟩
    rcases List.mem_cons.1 hd with rfl | hd
    · exact hi.operands _ (.head _)
    · obtain rfl := List.mem_singleton.1 hd
      refine ⟨storage, hstorage, ?_⟩
      simp [Shape.admits, hunboxed, htype]

theorem copyArrays_typed (h : b.Typed) : (copyArrays b).1.Typed := by
  have heq : (copyArrays b).1 = { b with code := (arrayRevision b).behind } := by
    rw [behind_arrayRevision]
    rfl
  have htends := copyArrays_tends b
  rw [heq] at htends ⊢
  refine h.of_revision (before_arrayRevision b) htends fun i i' hmem hi => ?_
  obtain ⟨j, -, hj⟩ := List.mem_map.1 hmem
  cases hj
  rcases arrayCopy?_getD b i with heq | ⟨result, source, rfl, -, heq⟩
  · rwa [heq]
  · rw [heq]
    refine ⟨fun d hd => ?_, trivial⟩
    obtain rfl := List.mem_singleton.1 hd
    exact (hi.operands (source, .object) (.head _)).any

/-! ### Slots -/

/-- An instruction stays well typed when its slot is found under a new number. -/
theorem renumber?_wellTyped {L L' : Layout} {number? : Slot → Option Slot} {i' : Instr}
    (hi : i.WellTyped L) (h : renumber? number? i = some i') (htemp : L'.temp = L.temp)
    (hslot : ∀ slot number, number? slot = some number → L'.slot number = L.slot slot) :
    i'.WellTyped L' := by
  have hhas : ∀ {t shape}, L.Has t shape → L'.Has t shape := by
    rintro t shape ⟨storage, hstorage, hshape⟩
    exact ⟨storage, htemp ▸ hstorage, hshape⟩
  have hfits := hi.storage
  unfold renumber? at h
  split at h
  · obtain ⟨number, hnumber, rfl⟩ := Option.map_eq_some_iff.1 h
    obtain ⟨storage, hheld, hresult⟩ := hfits
    exact ⟨nofun, storage, (hslot _ _ hnumber).trans hheld, htemp ▸ hresult⟩
  · obtain ⟨number, hnumber, rfl⟩ := Option.map_eq_some_iff.1 h
    obtain ⟨held, stored, hheld, hstored, hsame⟩ := hfits
    exact ⟨fun d hd => hhas (hi.operands d hd), held, stored, (hslot _ _ hnumber).trans hheld,
      htemp ▸ hstored, hsame⟩
  · rename_i hload hstore
    cases h
    refine ⟨fun d hd => hhas (hi.operands d hd), ?_⟩
    unfold Instr.FitsStorage at hfits ⊢
    split
    · exact absurd rfl (hload _ _)
    · obtain ⟨storage, hresult, hinstance⟩ := hfits
      exact ⟨storage, htemp ▸ hresult, hinstance⟩
    · exact absurd rfl (hstore _ _)
    · trivial

theorem compactSlots_typed (h : b.Typed) : (compactSlots b).1.Typed := by
  have htends := compactSlots_tends b
  unfold compactSlots at htends ⊢
  dsimp only at htends ⊢
  split at htends
  · rename_i hnone
    rw [if_pos hnone]
    exact h
  rename_i hsome
  rw [if_neg hsome]
  obtain ⟨hconsistent, hreworked⟩ := htends h.toConsistent
  refine ⟨hconsistent, fun i' hi' => ?_, fun t ht => h.stored t ?_⟩
  · obtain ⟨i, hi, hrenumber⟩ := List.mem_filterMap.1 hi'
    refine renumber?_wellTyped (h.wellTyped i hi) hrenumber rfl fun slot number hnumber => ?_
    exact congrArg (Option.map SlotInfo.storage) (getElem?_slots_of_number hnumber)
  · exact hreworked.definedTemps_subset ht

/-! ### Calls -/

theorem bindMemberCalls_typed (h : b.Typed) (registry : Registry) :
    (b.bindMemberCalls registry).1.Typed := by
  have htends := b.bindMemberCalls_tends registry
  have hbefore := MemberBinding.before_revision b registry
  rw [MemberBinding.bindMemberCalls_fst] at htends ⊢
  refine h.of_revision hbefore htends fun i i' hmem hi => ?_
  cases MemberBinding.edit_of_mem hmem with
  | keep => exact hi
  | fixed hcall =>
    obtain ⟨_, _, _, -, -, -, rfl⟩ := hcall
    exact ⟨hi.operands, trivial⟩
  | packed harray hcall =>
    obtain ⟨_, _, _, -, -, -, rfl⟩ := hcall
    refine ⟨fun d hd => ?_, trivial⟩
    rcases List.mem_cons.1 hd with rfl | hd
    · exact hi.operands _ (.head _)
    · have hpacking := Revision.mem_before harray
      rw [hbefore] at hpacking
      exact (h.wellTyped _ hpacking).operands d hd

/-! ### All passes -/

theorem passIf_typed {pass : Body → Body × Nat} (h : ∀ {b : Body}, b.Typed → (pass b).1.Typed)
    (hb : b.Typed) (isEnabled : Bool) : (b.passIf isEnabled pass).1.Typed := by
  unfold passIf
  split
  · exact h hb
  · exact hb

theorem normalizeTypes_typed (h : b.Typed) : b.normalizeTypes.1.Typed :=
  compactSlots_typed (copyArrays_typed (unboxFieldStores_typed (typeConstructions_typed h)))

theorem optimize_typed (h : b.Typed) (registry : Registry) (options : Options) :
    (b.optimize registry options).1.Typed :=
  passIf_typed (fun h => bindMemberCalls_typed h registry)
    (passIf_typed normalizeTypes_typed (passIf_typed reuseCoercions_typed h _) _) _

end Body

/-- Every result of a lowered body has a storage. -/
theorem Course.bodyTyped {w : Setting} {entry s : Session} (h : Course w entry s) (f : Function) :
    (s.toBody f).Typed := by
  refine ⟨h.consistent f, h.typed.wellTyped f, fun t ht => ?_⟩
  obtain ⟨i, hi, hresult⟩ := List.mem_filterMap.1 ht
  rw [Session.layout_toBody]
  rcases Session.mem_toBody hi with hi | ⟨targets, start, rfl⟩
  · have hlt := h.sound.range i hi t (.inr hresult)
    exact ⟨_, Array.getElem?_eq_getElem hlt, h.sound.known _ (Array.getElem_mem hlt)⟩
  · cases hresult

/-- Compiled code is well typed: every instruction finds its operands in the shapes that it demands,
a slot is loaded in its own storage and holds a bare double or boolean exactly if it is one, and
what is constructed is an object. -/
theorem Function.compile_wellTyped {f : Function} {tree : ScopeTree} {registry : Registry}
    {options : Options} {body : Body} (h : (f.compile tree registry options).result = .ok body) :
    body.WellTyped := by
  obtain ⟨scope, entry, s, -, rfl, hcourse⟩ := exists_compiled h
  exact (Body.optimize_typed (hcourse.bodyTyped f) registry options).wellTyped

theorem compile_wellTyped_negatedSum :
    .define ⟨3⟩ (.addToNumber ⟨2⟩ ⟨1⟩) ∈ negatedSum.compiledAlone.code ∧
      negatedSum.compiledAlone.WellTyped := by
  have h : (negatedSum.compile (.ofModule "m") {} {}).result = .ok negatedSum.compiledAlone := by
    decide +kernel
  exact ⟨by decide +kernel, Function.compile_wellTyped h⟩

end ScriptLowering
