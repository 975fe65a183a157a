import ScriptLowering.Proofs.Arity
import ScriptLowering.Proofs.WellFormed

/-!
# The calls that are bound

Early binding replaces member calls and drops the argument arrays that only they have read. How
often a temp is read and where arrays are built is looked up once, in front of the pass, while calls
inside of arrays and arrays inside of arrays are rewritten. No array is dropped that is read behind
the pass, and the pass leaves nothing to a second one.

## Main result

* `Body.bindMemberCalls_rewrites`: what early binding does to a body.
-/

namespace ScriptLowering

namespace MemberBinding

variable {b : Body} {registry : Registry} {i i' : Instr} {o : Option Instr} {t : Temp}
variable {facts : Facts} {r r' : Revision}

/-- The number of entries whose instruction is replaced by another one. -/
def replacements (r : Revision) : Nat :=
  r.countP fun entry => entry.2.any fun i' => decide (i' ≠ entry.1)

theorem replacements_revision (b : Body) (registry : Registry) :
    replacements (revision b registry) = (b.bindMemberCalls registry).2 := by
  have hbefore : b.code = (revision b registry).map Prod.fst := (before_revision b registry).symm
  rw [b.bindMemberCalls_count, replacements]
  conv_rhs => rw [hbefore, List.countP_map]
  refine List.countP_congr fun entry hmem => ?_
  obtain ⟨i, o⟩ := entry
  rw [Function.comp_apply]
  rcases of_mem_revision hmem with ⟨rfl, hnone, -⟩ | rfl
  · simp [hnone]
  cases hbind : bind? (factsOf b registry) i with
  | none => simp [replaced]
  | some bound =>
    have hne : bound.call ≠ i := by
      rcases bind?_eq_some (packings_locates b) hbind with ⟨_, _, _, _, rfl, -, hcall⟩ |
        ⟨_, _, _, _, _, _, rfl, -, -, -, hcall⟩
      all_goals
        obtain ⟨_, _, _, -, -, -, heq⟩ := hcall
        simp [heq]
    simp [replaced, hne]

/-! ### Behind the pass -/

/-- Bound calls and argument arrays say nothing about classes. -/
theorem foldl_step_behind (h : ∀ i o, (i, o) ∈ r → Edit facts r' i o) (single : List Slot) (c : Classes) :
    r.behind.foldl (Classes.step single) c = r.before.foldl (Classes.step single) c := by
  induction r generalizing c with
  | nil => rfl
  | cons entry r ih =>
    obtain ⟨i, o⟩ := entry
    have hstep : o.toList.foldl (Classes.step single) c = c.step single i := by
      cases h i o (.head _) with
      | keep | taken => rfl
      | fixed hcall | packed _ hcall =>
        obtain ⟨_, _, _, -, -, -, rfl⟩ := hcall
        rfl
    rw [Revision.before_cons, Revision.behind_cons, List.foldl_append, List.foldl_cons, hstep]
    exact ih (fun i o hmem => h i o (.tail _ hmem)) _

theorem receiverClasses_bindMemberCalls (b : Body) (registry : Registry) :
    receiverClasses (b.bindMemberCalls registry).1 = receiverClasses b := by
  have hfold := foldl_step_behind (fun i o (h : (i, o) ∈ revision b registry) => edit_of_mem h)
    b.singleAssignment { temps := b.temps.map fun storage => storage.bind Storage.className? }
  rwa [behind_revision, before_revision] at hfold

theorem bindCall?_bindMemberCalls (result receiver : Temp) (name : String) (args : List Temp) :
    bindCall? (factsOf (b.bindMemberCalls registry).1 registry) result receiver name args
      = bindCall? (factsOf b registry) result receiver name args := by
  unfold bindCall? factsOf
  rw [receiverClasses_bindMemberCalls]

/-- An array that is not dropped has the same elements. -/
theorem lastPacking_behind (h : ∀ i o, (i, o) ∈ r → Edit facts r' i o) (ht : t ∉ r.dropped) :
    lastPacking t r.behind = lastPacking t r.before := by
  induction r with
  | nil => rfl
  | cons entry r ih =>
    obtain ⟨i, o⟩ := entry
    have hkept : t ∉ Revision.dropped r := fun hmem => by
      obtain ⟨j, hj, hresult⟩ := Revision.mem_dropped.1 hmem
      exact ht (Revision.mem_dropped.2 ⟨j, .tail _ hj, hresult⟩)
    have hstep : lastPacking t o.toList = packing? t i := by
      cases h i o (.head _) with
      | keep => simp [lastPacking]
      | fixed hcall | packed _ hcall =>
        obtain ⟨_, _, _, -, -, -, rfl⟩ := hcall
        rfl
      | @taken _ _ packed =>
        have hne : packed ≠ t := by
          rintro rfl
          exact ht (Revision.mem_dropped.2 ⟨_, .head _, rfl⟩)
        simp [lastPacking, packing?, hne]
    rw [Revision.before_cons, Revision.behind_cons, lastPacking_append, hstep, lastPacking,
      ih (fun i o hmem => h i o (.tail _ hmem)) hkept]

/-- Where a temp was read that is not dropped, it still is, or a bound call reads it in place of the
array that it was in. -/
theorem exists_reader (h : (i, o) ∈ revision b registry) (hread : t ∈ i.uses)
    (ht : t ∉ (revision b registry).dropped) :
    ∃ j j', (j, some j') ∈ revision b registry ∧ t ∈ j'.uses ∧ ((j, some j') = (i, o) ∨ j' ≠ j) := by
  cases edit_of_mem h with
  | keep => exact ⟨_, _, h, hread, .inl rfl⟩
  | fixed hcall =>
    obtain ⟨_, _, _, -, -, -, rfl⟩ := hcall
    exact ⟨_, _, h, hread, .inl rfl⟩
  | packed harray hcall =>
    obtain ⟨_, _, _, -, -, -, rfl⟩ := hcall
    rcases List.mem_pair.1 hread with rfl | rfl
    · exact ⟨_, _, h, .head _, .inl rfl⟩
    · exact absurd (Revision.mem_dropped.2 ⟨_, harray, rfl⟩) ht
  | taken hmem hcall =>
    obtain ⟨_, _, _, -, -, -, rfl⟩ := hcall
    exact ⟨_, _, hmem, .tail _ hread, .inr (by simp)⟩

/-- What an instruction that stays does not read alone, it does not read alone behind the pass. -/
theorem two_le_readCount_behind (hi : (i, some i) ∈ revision b registry) (hread : t ∈ i.uses)
    (ht : t ∉ (revision b registry).dropped) (h : 2 ≤ readCount (revision b registry).before t) :
    2 ≤ readCount (revision b registry).behind t := by
  obtain ⟨front, rest, hr⟩ := List.append_of_mem hi
  have hself : 0 < i.uses.count t := List.count_pos_iff.2 hread
  rw [hr] at h ⊢
  simp only [Revision.before_append, Revision.before_cons, Revision.behind_append, Revision.behind_cons,
    Option.toList_some, List.singleton_append, readCount_append, readCount_cons] at h ⊢
  by_contra hlt
  obtain ⟨j, hj, htj⟩ : ∃ j ∈ Revision.before (front ++ rest), t ∈ j.uses := by
    refine List.mem_flatMap.1 (List.count_pos_iff.1 ?_)
    show 0 < readCount (Revision.before (front ++ rest)) t
    rw [Revision.before_append, readCount_append]
    omega
  obtain ⟨⟨j, o⟩, hmem, rfl⟩ := List.mem_map.1 hj
  have hsub : front ++ rest ⊆ revision b registry := hr ▸ by simp
  obtain ⟨k, k', hk, htk, hsame⟩ := exists_reader (hsub hmem) htj ht
  have hmem' : (k, some k') ∈ front ++ rest := by
    rcases hsame with heq | hne
    · exact heq ▸ hmem
    · have hk : (k, some k') ∈ front ++ (i, some i) :: rest := hr ▸ hk
      have hne' : (k, some k') ≠ (i, some i) := by
        rintro heq
        cases heq
        exact hne rfl
      simpa [hne'] using hk
  have hbehind : k' ∈ Revision.behind (front ++ rest) := List.mem_filterMap.2 ⟨_, hmem', rfl⟩
  have hcount := count_le_readCount (t := t) hbehind
  have hpos := List.count_pos_iff.2 htk
  rw [Revision.behind_append, readCount_append] at hcount
  omega

/-- When a call takes its argument array apart. -/
theorem isSome_bind?_packed_iff (result receiver packed : Temp) (name : String) :
    (bind? (factsOf b registry) (.define result (.callMember receiver name packed))).isSome ↔
      packed.index < b.temps.size ∧ readCount b.code packed = 1 ∧ ∃ args,
        lastPacking packed b.code = some args ∧
        (bindCall? (factsOf b registry) result receiver name args).isSome := by
  have huses : (factsOf b registry).uses[packed.index]? = _ := b.getElem?_useCounts packed
  have hpacking : (factsOf b registry).packings[packed.index]?.join.map Prod.snd = _ :=
    getElem?_packings b packed
  rw [isSome_bind?_packed, Option.any_eq_true]
  by_cases hlt : packed.index < b.temps.size
  · rw [if_pos hlt] at huses hpacking
    simp only [huses, ← hpacking, Option.map_eq_some_iff, Bool.and_eq_true, beq_iff_eq, Option.some.injEq]
    constructor
    · rintro ⟨entry, hentry, hone, hcall⟩
      exact ⟨hlt, hone, entry.2, ⟨entry, hentry, rfl⟩, hcall⟩
    · rintro ⟨-, hone, _, ⟨entry, hentry, rfl⟩, hcall⟩
      exact ⟨entry, hentry, hone, hcall⟩
  · rw [if_neg hlt] at huses
    simp [huses, hlt]

/-- A call that is not bound is not bound behind the pass either. -/
theorem bind?_bindMemberCalls_packed {result receiver packed : Temp} {name : String}
    (hmem : (.define result (.callMember receiver name packed),
      some (.define result (.callMember receiver name packed))) ∈ revision b registry)
    (ht : packed ∉ (revision b registry).dropped)
    (h : bind? (factsOf b registry) (.define result (.callMember receiver name packed)) = none) :
    bind? (factsOf (b.bindMemberCalls registry).1 registry)
      (.define result (.callMember receiver name packed)) = none := by
  rw [← Option.not_isSome_iff_eq_none, isSome_bind?_packed_iff] at h ⊢
  rintro ⟨hlt, hone, args, hargs, hcall⟩
  rw [← behind_revision] at hone hargs
  rw [lastPacking_behind (fun _ _ => edit_of_mem) ht, before_revision] at hargs
  refine h ⟨hlt, ?_, args, hargs, bindCall?_bindMemberCalls (b := b) .. ▸ hcall⟩
  -- the array has no other reader
  have hself : [receiver, packed].count packed ≤ readCount b.code packed :=
    count_le_readCount (before_revision b registry ▸ Revision.mem_before hmem)
  have hpos := List.count_pos_iff.2 (show packed ∈ [receiver, packed] by simp)
  by_contra hne
  have htwo := two_le_readCount_behind hmem (.tail _ (.head _)) ht (by rw [before_revision]; omega)
  omega

/-- The pass leaves no call to a second one. -/
theorem bind?_bindMemberCalls (hsound : (revision b registry).Sound)
    (h : i ∈ (b.bindMemberCalls registry).1.code) :
    bind? (factsOf (b.bindMemberCalls registry).1 registry) i = none := by
  rw [← behind_revision] at h
  obtain ⟨⟨j, o⟩, hmem, rfl⟩ := List.mem_filterMap.1 h
  cases edit_of_mem hmem with
  | fixed hcall | packed _ hcall =>
    obtain ⟨_, _, _, -, -, -, rfl⟩ := hcall
    rfl
  | keep hnone =>
    cases i with
    | define result op =>
      cases op with
      | callMemberFixed receiver name args =>
        rw [← Option.not_isSome_iff_eq_none, isSome_bind?_fixed] at hnone ⊢
        rwa [bindCall?_bindMemberCalls]
      | callMember receiver name packed =>
        exact bind?_bindMemberCalls_packed hmem (hsound.keeps hmem _ (.tail _ (.head _))) hnone
      | _ => rfl
    | _ => rfl

theorem bindMemberCalls_eq_self (h : ∀ i ∈ b.code, bind? (factsOf b registry) i = none) :
    b.bindMemberCalls registry = (b, 0) := by
  have hcode : (revision b registry).behind = (revision b registry).before := by
    have hentry : ∀ entry ∈ revision b registry, entry.2 = some entry.1 := by
      intro entry hmem
      obtain ⟨i, o⟩ := entry
      rcases of_mem_revision hmem with ⟨-, -, _, -, j, hj, bound, hbind, -⟩ | rfl
      · simp [h j hj] at hbind
      · rw [h i (before_revision b registry ▸ Revision.mem_before hmem)]
        rfl
    rw [Revision.behind, List.filterMap_congr hentry, Revision.before, List.filterMap_eq_map']
  have hcount : (b.bindMemberCalls registry).2 = 0 := by
    rw [b.bindMemberCalls_count, List.countP_eq_zero]
    exact fun i hi => by simp [h i hi]
  refine Prod.ext ?_ hcount
  rw [bindMemberCalls_fst, hcode, before_revision]

end MemberBinding

open MemberBinding

/-- Early binding rewrites the calls that it binds and counts them. A bound call keeps its result,
receiver, name and arguments, and the argument arrays that go are those that bound calls were built
for. Nothing that is left reads one of them, and a second pass finds nothing to bind. -/
theorem Body.bindMemberCalls_rewrites (b : Body) (registry : Registry)
    (hnodup : (definedTemps b.code).Nodup) (huses : UsesDefined b.code) :
    ∃ r : Revision, r.before = b.code ∧
      b.bindMemberCalls registry = ({ b with code := r.behind }, replacements r) ∧
      (∀ i o, (i, o) ∈ r → Edit (factsOf b registry) r i o) ∧
      (∀ i ∈ r.behind, ∀ t ∈ i.uses, t ∉ r.dropped) ∧
      (b.bindMemberCalls registry).1.bindMemberCalls registry
        = ((b.bindMemberCalls registry).1, 0) := by
  have hsound : (revision b registry).Sound := revision_sound hnodup huses
  refine ⟨revision b registry, before_revision b registry, ?_, fun _ _ => edit_of_mem, ?_, ?_⟩
  · rw [← bindMemberCalls_fst, replacements_revision]
  · intro i hi t ht
    obtain ⟨⟨j, o⟩, hmem, rfl⟩ := List.mem_filterMap.1 hi
    exact hsound.keeps hmem t ht
  · exact bindMemberCalls_eq_self fun i hi => bind?_bindMemberCalls hsound hi

/-- `new C().m(x)`, with an argument array. -/
def packedCall : Body where
  name := "packedCall"
  code := [.define ⟨0⟩ (.newClass "C" []), .define ⟨1⟩ (.packArguments [⟨0⟩]),
    .define ⟨2⟩ (.callMember ⟨0⟩ "m" ⟨1⟩)]
  temps := #[some .object, some .array, some .object]

/-- `class C { m(x) {} }`. -/
def methodOfOne : Registry :=
  .ofList [({ name := "C" } : ClassInfo).addMethod "m" 1 false]

theorem bindMemberCalls_rewrites_packedCall :
    (packedCall.bindMemberCalls methodOfOne).2 = 1 ∧
    ∃ r : Revision, r.before = packedCall.code ∧
      packedCall.bindMemberCalls methodOfOne = ({ packedCall with code := r.behind }, replacements r) := by
  obtain ⟨r, hbefore, hpass, -⟩ :=
    packedCall.bindMemberCalls_rewrites methodOfOne (by decide) (by decide)
  exact ⟨by decide +kernel, r, hbefore, hpass⟩

end ScriptLowering
