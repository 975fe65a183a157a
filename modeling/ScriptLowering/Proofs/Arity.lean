import Mathlib.Data.List.Count
import ScriptLowering.Proofs.Arity.Folding
import ScriptLowering.Proofs.Revision.Passes

/-!
# The options do not matter for the shape of a body

The lowering reads one of the options: how many plain arguments a call of fixed arity takes at most.
A function is declined with every bound or with none, for the same reason, and the bodies that come
out are the same once the argument arrays are folded into their calls and the temps are renamed.

The early binding of member calls finds the same calls in both bodies, since it looks through
argument arrays that nothing but the call reads. What it knows about a body is invariant under
renaming, and it knows of an unpacked call what it knew of the call with the array.

## Main results

* `MemberBinding.Facts.Agree.bind?`: what is bound is settled by what is known about the temps;
* `Body.RenamedBy.bindMemberCalls`, `Body.Unpacks.bindMemberCalls`: the number of calls that are
  bound;
* `Function.lower_sameShape`: lowerings with different options.
-/

namespace ScriptLowering

variable {b b' : Body} {ρ : Equiv.Perm Temp}

namespace MemberBinding

/-! ### What is known about the temps -/

section Bind

variable (facts : Facts) (result receiver : Temp) (name : String)

theorem isSome_bind?_fixed (args : List Temp) :
    (bind? facts (.define result (.callMemberFixed receiver name args))).isSome
      = (bindCall? facts result receiver name args).isSome :=
  Option.isSome_map

theorem isSome_bind?_packed (packed : Temp) :
    (bind? facts (.define result (.callMember receiver name packed))).isSome
      = facts.packings[packed.index]?.join.any fun entry => facts.uses[packed.index]? == some 1 &&
        (bindCall? facts result receiver name entry.2).isSome := by
  dsimp only [bind?]
  generalize facts.packings[packed.index]?.join = entry
  generalize (facts.uses[packed.index]? == some 1) = isReadOnce
  cases entry with
  | none => rfl
  | some entry =>
    cases isReadOnce with
    | false => rfl
    | true => cases hcall : bindCall? facts result receiver name entry.2 <;> simp [hcall]

end Bind

/-- Of the temps in `T`, the same is known on both sides; those of the second side have other
names. -/
structure Facts.Agree (ρ : Temp → Temp) (T : List Temp) (facts facts' : Facts) : Prop where
  registry : facts'.registry = facts.registry
  classes : ∀ t ∈ T, facts'.classes.of? (ρ t) = facts.classes.of? t
  uses : ∀ t ∈ T, facts'.uses[(ρ t).index]? = facts.uses[t.index]?
  packings : ∀ t ∈ T, facts'.packings[(ρ t).index]?.join.map (·.2.length)
    = facts.packings[t.index]?.join.map (·.2.length)

namespace Facts.Agree

variable {ρ : Temp → Temp} {T : List Temp} {facts facts' : Facts}

/-- Whether a call is bound depends on the class of the receiver and the number of arguments. -/
theorem bindCall? (h : facts.Agree ρ T facts') (result result' : Temp) {receiver : Temp} (name : String)
    {args args' : List Temp} (hreceiver : receiver ∈ T) (hlength : args'.length = args.length) :
    (MemberBinding.bindCall? facts' result' (ρ receiver) name args').isSome
      = (MemberBinding.bindCall? facts result receiver name args).isSome := by
  unfold MemberBinding.bindCall?
  rw [h.classes receiver hreceiver, h.registry, hlength]
  cases facts.classes.of? receiver with
  | none => rfl
  | some className =>
    cases facts.registry.uniqueInstanceMethod? name args.length with
    | none => rfl
    | some found =>
      simp only [Option.bind_eq_bind, Option.bind_some]
      split <;> rfl

/-- The same instructions are bound. -/
theorem bind? (h : facts.Agree ρ T facts') {i : Instr} (hi : i.uses ⊆ T) :
    (MemberBinding.bind? facts' (i.rename ρ)).isSome = (MemberBinding.bind? facts i).isSome := by
  cases i with
  | define result op =>
    cases op with
    | callMemberFixed receiver name args =>
      have hrename : Instr.rename ρ (.define result (.callMemberFixed receiver name args))
          = .define (ρ result) (.callMemberFixed (ρ receiver) name (args.map ρ)) := rfl
      rw [hrename, isSome_bind?_fixed, isSome_bind?_fixed]
      exact h.bindCall? result _ name (hi (.head _)) (List.length_map ρ)
    | callMember receiver name packed =>
      have hpacked : packed ∈ T := hi (.tail _ (.head _))
      have hrename : Instr.rename ρ (.define result (.callMember receiver name packed))
          = .define (ρ result) (.callMember (ρ receiver) name (ρ packed)) := rfl
      have hpacking := h.packings packed hpacked
      rw [hrename, isSome_bind?_packed, isSome_bind?_packed, h.uses packed hpacked]
      generalize facts.packings[packed.index]?.join = entry at hpacking ⊢
      generalize facts'.packings[(ρ packed).index]?.join = entry' at hpacking ⊢
      cases entry with
      | none =>
        rw [Option.map_eq_none_iff.1 hpacking]
        rfl
      | some entry =>
        obtain ⟨entry', rfl, hlength⟩ := Option.map_eq_some_iff.1 hpacking
        rw [Option.any_some, Option.any_some,
          h.bindCall? result (ρ result) name (hi (.head _)) hlength]
    | _ => rfl
  | _ => rfl

end Facts.Agree

/-! ### The tables of a renamed body -/

/-- The elements of the argument array that the instruction defines the temp as. -/
def packing? (t : Temp) : Instr → Option (List Temp)
  | .define result (.packArguments args) => if result = t then some args else none
  | _ => none

/-- The elements of the argument array that the temp is last defined as. -/
def lastPacking (t : Temp) : List Instr → Option (List Temp)
  | [] => none
  | i :: rest => (lastPacking t rest).or (packing? t i)

theorem lastPacking_append (t : Temp) (code code' : List Instr) :
    lastPacking t (code ++ code') = (lastPacking t code').or (lastPacking t code) := by
  induction code with
  | nil => simp [lastPacking]
  | cons i code ih => simp [lastPacking, ih, Option.or_assoc]

theorem lastPacking_eq_none {t : Temp} {code : List Instr} (h : ∀ i ∈ code, packing? t i = none) :
    lastPacking t code = none := by
  induction code with
  | nil => rfl
  | cons i code ih =>
    obtain ⟨hi, hcode⟩ := List.forall_mem_cons.1 h
    rw [lastPacking, ih hcode, hi, Option.or_none]

theorem getElem?_packings (b : Body) (t : Temp) :
    (packings b)[t.index]?.join.map Prod.snd
      = if t.index < b.temps.size then lastPacking t b.code else none := by
  suffices hfold : ∀ (code : List Instr) (n : Nat) (table : Array (Option (Nat × List Temp))),
      ((code.zipIdx n).foldl _ table)[t.index]?.join.map Prod.snd
        = (if t.index < table.size then lastPacking t code else none).or
          (table[t.index]?.join.map Prod.snd) by
    refine (hfold b.code 0 _).trans ?_
    rw [Array.size_replicate, Array.getElem?_replicate]
    split <;> exact Option.or_none
  intro code
  induction code with
  | nil => intro n table; simp [lastPacking]
  | cons i code ih =>
    intro n table
    refine (ih (n + 1) _).trans ?_
    dsimp only
    split
    · rename_i result args
      rw [lastPacking, Array.size_setIfInBounds, Array.getElem?_setIfInBounds]
      by_cases ht : result = t
      · subst ht
        by_cases hlt : result.index < table.size <;> simp [hlt, packing?]
      · have hindex : result.index ≠ t.index := fun hindex => ht (congrArg Temp.mk hindex)
        simp [hindex, packing?, ht]
    · rename_i hother
      have hnone : packing? t i = none := by
        unfold packing?
        split
        · exact absurd rfl (hother _ _)
        · rfl
      rw [lastPacking, hnone, Option.or_none]

theorem packing?_rename (ρ : Equiv.Perm Temp) (t : Temp) (i : Instr) :
    packing? (ρ t) (i.rename ρ) = (packing? t i).map (List.map ρ) := by
  cases i with
  | define result op =>
    cases op with
    | packArguments args =>
      have hrename : Instr.rename ρ (.define result (.packArguments args))
          = .define (ρ result) (.packArguments (args.map ρ)) := rfl
      rw [hrename]
      unfold packing?
      by_cases ht : result = t
      · simp [ht]
      · simp [ht]
    | _ => rfl
  | _ => rfl

theorem lastPacking_rename (ρ : Equiv.Perm Temp) (t : Temp) (code : List Instr) :
    lastPacking (ρ t) (code.map (Instr.rename ρ)) = (lastPacking t code).map (List.map ρ) := by
  induction code with
  | nil => rfl
  | cons i code ih => rw [List.map_cons, lastPacking, lastPacking, ih, packing?_rename, Option.map_or]

/-- Of two tables with the same entry, both have it or neither has. -/
theorem lt_size_iff {α : Type} {xs ys : Array α} {i j : Nat} (h : ys[j]? = xs[i]?) :
    j < ys.size ↔ i < xs.size := by
  rw [← not_iff_not, not_lt, not_lt, ← Array.getElem?_eq_none_iff, h, Array.getElem?_eq_none_iff]

/-- The same is known about the classes of the temps in `T`. -/
structure Classes.Agree (ρ : Temp → Temp) (T : List Temp) (c c' : Classes) : Prop where
  temps : ∀ t ∈ T, c'.temps[(ρ t).index]? = c.temps[t.index]?
  slots : c'.slots = c.slots

namespace Classes.Agree

variable {ρ : Equiv.Perm Temp} {T : List Temp} {c c' : Classes}
variable {t : Temp}

theorem of? (h : c.Agree ρ T c') (ht : t ∈ T) : c'.of? (ρ t) = c.of? t :=
  congrArg Option.join (h.temps t ht)

theorem note (h : c.Agree ρ T c') (ht : t ∈ T) (className : String) :
    (c.note t className).Agree ρ T (c'.note (ρ t) className) where
  temps u hu := by
    simp only [Classes.note, Array.getElem?_setIfInBounds]
    by_cases htu : t = u
    · subst htu
      simp only [if_true, lt_size_iff (h.temps t ht)]
    · have hne : t.index ≠ u.index := fun hindex => htu (congrArg Temp.mk hindex)
      have hne' : (ρ t).index ≠ (ρ u).index := fun hindex =>
        htu (ρ.injective (congrArg Temp.mk hindex))
      rw [if_neg hne, if_neg hne', h.temps u hu]
  slots := h.slots

/-- One instruction. -/
theorem step (h : c.Agree ρ T c') (single : List Slot) {i : Instr} (hi : i.temps ⊆ T) :
    (c.step single i).Agree ρ T (c'.step single (i.rename ρ)) := by
  cases i with
  | define result op =>
    have hresult : result ∈ T := hi (.head _)
    cases op with
    | newClass className args => exact h.note hresult className
    | copy source =>
      have hsource := h.of? (hi (.tail _ (.head _)))
      have hrename : Instr.rename ρ (.define result (.copy source)) = .define (ρ result)
        (.copy (ρ source)) := rfl
      rw [hrename]
      dsimp only [Classes.step]
      rw [hsource]
      cases c.of? source with
      | none => exact h
      | some className => exact h.note hresult className
    | loadSlot slot =>
      have hrename : Instr.rename ρ (.define result (.loadSlot slot)) = .define (ρ result)
        (.loadSlot slot) := rfl
      rw [hrename]
      dsimp only [Classes.step]
      rw [h.slots]
      cases c.slots.lookup slot with
      | none => exact h
      | some className => exact h.note hresult className
    | _ => exact h
  | perform effect =>
    cases effect with
    | storeSlot slot value =>
      have hvalue := h.of? (hi (.head _))
      have hrename : Instr.rename ρ (.perform (.storeSlot slot value)) = .perform
        (.storeSlot slot (ρ value)) := rfl
      rw [hrename]
      dsimp only [Classes.step]
      rw [hvalue]
      cases single.contains slot with
      | false => exact h
      | true =>
        cases c.of? value with
        | none => exact h
        | some className => exact ⟨h.temps, congrArg ((slot, className) :: ·) h.slots⟩
    | _ => exact h
  | _ => exact h

/-- A list of instructions. -/
theorem foldl (h : c.Agree ρ T c') (single : List Slot) {code : List Instr}
    (hcode : ∀ i ∈ code, i.temps ⊆ T) :
    (code.foldl (Classes.step single) c).Agree ρ T
      ((code.map (Instr.rename ρ)).foldl (Classes.step single) c') := by
  induction code generalizing c c' with
  | nil => exact h
  | cons i code ih =>
    obtain ⟨hi, hcode⟩ := List.forall_mem_cons.1 hcode
    exact ih (h.step single hi) hcode

end Classes.Agree

end MemberBinding

open MemberBinding

theorem Body.bindMemberCalls_count (b : Body) (registry : Registry) :
    (b.bindMemberCalls registry).2 = b.code.countP fun i => (bind? (factsOf b registry) i).isSome :=
  List.countP_map

theorem readCount_rename (ρ : Equiv.Perm Temp) (code : List Instr) (t : Temp) :
    readCount (code.map (Instr.rename ρ)) (ρ t) = readCount code t := by
  have huses : ∀ i : Instr, (i.rename ρ).uses = i.uses.map ρ := by
    intro i
    cases i with
    | define result op => exact op.uses_rename ρ
    | perform effect => exact effect.uses_rename ρ
    | _ => rfl
  rw [readCount, List.flatMap_map, readCount]
  simp only [huses]
  rw [← List.map_flatMap, List.count_map_of_injective _ _ ρ.injective]

theorem length_packings (b : Body) (t : Temp) :
    (packings b)[t.index]?.join.map (·.2.length)
      = (if t.index < b.temps.size then lastPacking t b.code else none).map List.length := by
  rw [← getElem?_packings, Option.map_map]
  rfl

/-- What is known about a renamed body. -/
theorem Body.RenamedBy.facts (h : b.RenamedBy ρ b') (registry : Registry) :
    (factsOf b registry).Agree ρ (b.code.flatMap Instr.temps) (factsOf b' registry) := by
  have htemps : ∀ t ∈ b.code.flatMap Instr.temps, b'.temps[(ρ t).index]? = b.temps[t.index]? := by
    intro t ht
    obtain ⟨i, hi, hti⟩ := List.mem_flatMap.1 ht
    exact h.temps i hi t hti
  have hclasses : (receiverClasses b).Agree ρ (b.code.flatMap Instr.temps) (receiverClasses b') := by
    have hsingle : b'.singleAssignment = b.singleAssignment := by rw [h.rest]
    unfold receiverClasses
    rw [h.code, hsingle]
    have hstart : Classes.Agree ρ (b.code.flatMap Instr.temps)
        { temps := b.temps.map fun storage => storage.bind Storage.className? }
        { temps := b'.temps.map fun storage => storage.bind Storage.className? } :=
      ⟨fun u hu => by rw [Array.getElem?_map, Array.getElem?_map, htemps u hu], rfl⟩
    exact hstart.foldl b.singleAssignment fun i hi t ht => List.mem_flatMap.2 ⟨i, hi, ht⟩
  refine ⟨rfl, fun t ht => hclasses.of? ht, fun t ht => ?_, fun t ht => ?_⟩
  · dsimp only [factsOf]
    simp only [b.getElem?_useCounts, b'.getElem?_useCounts, lt_size_iff (htemps t ht), h.code,
      readCount_rename]
  · dsimp only [factsOf]
    simp only [length_packings, lt_size_iff (htemps t ht), h.code, lastPacking_rename]
    split <;> simp [Function.comp_def]

/-- Other names for the temps do not change the number of calls that are bound. -/
theorem Body.RenamedBy.bindMemberCalls (h : b.RenamedBy ρ b')
    (registry : Registry) : (b'.bindMemberCalls registry).2 = (b.bindMemberCalls registry).2 := by
  rw [b'.bindMemberCalls_count, b.bindMemberCalls_count, h.code, List.countP_map]
  refine List.countP_congr fun i hi => ?_
  have huses : i.uses ⊆ b.code.flatMap Instr.temps := fun t ht =>
    List.mem_flatMap.2 ⟨i, hi, List.mem_append_right _ ht⟩
  rw [Function.comp_apply, (h.facts registry).bind? huses]

/-! ### The tables of an unpacked body -/

namespace Segment

/-- The array is read once more than in the unpacked code. -/
theorem readCount_first (G : List Segment) (t : Temp) :
    readCount (G.flatMap first) t = readCount (G.map folded) t + (G.filterMap array?).count t := by
  have hpack : ∀ args : List Temp, (Operation.packArguments args).uses = args := fun _ => rfl
  induction G with
  | nil => rfl
  | cons g G ih =>
    rw [List.flatMap_cons, readCount_append, ih, List.map_cons, readCount_cons]
    cases g with
    | single i i' =>
      rw [first, folded, readCount_cons, List.filterMap_cons_none (show array? (.single i i') = none from rfl)]
      simp only [readCount, List.flatMap_nil, List.count_nil]
      omega
    | packed form form' result result' array args args' =>
      rw [first, folded, readCount_cons, readCount_cons,
        List.filterMap_cons_some (show array? (.packed ..) = some array from rfl), List.count_cons]
      simp only [Instr.uses, hpack, CallForm.uses_fixed, CallForm.uses_packed, List.count_append,
        List.count_cons, List.count_nil, readCount, List.flatMap_nil]
      omega

/-- No array is taken for another one. -/
theorem lastPacking_first {G : List Segment} {t : Temp} (h : t ∉ G.filterMap array?) :
    lastPacking t (G.flatMap first) = lastPacking t (G.map folded) := by
  induction G with
  | nil => rfl
  | cons g G ih =>
    rw [List.flatMap_cons, lastPacking_append, List.map_cons, lastPacking]
    cases g with
    | single i i' =>
      rw [ih h]
      simp [first, folded, lastPacking]
    | packed form form' result result' array args args' =>
      obtain ⟨hne, h⟩ : t ≠ array ∧ t ∉ G.filterMap array? := by simpa [array?] using h
      have harray : packing? t (.define array (.packArguments args)) = none := if_neg hne.symm
      have hpacked : packing? t (.define result (form.packed array)) = none := by cases form <;> rfl
      have hfixed : packing? t (.define result (form.fixed args)) = none := by cases form <;> rfl
      simp [ih h, first, folded, lastPacking, harray, hpacked, hfixed]

/-- Packing the arguments of a call tells nothing about classes. -/
theorem foldl_step_first (single : List Slot) (G : List Segment) (c : Classes) :
    (G.flatMap first).foldl (Classes.step single) c = (G.map folded).foldl (Classes.step single) c := by
  induction G generalizing c with
  | nil => rfl
  | cons g G ih =>
    rw [List.flatMap_cons, List.foldl_append, List.map_cons, List.foldl_cons, ih]
    congr 1
    cases g with
    | single i i' => rfl
    | packed form form' result result' array args args' => cases form <;> rfl

end Segment

namespace Body.Unpacks

variable {G : List Segment} {b c : Body} {registry : Registry}
variable {form form' : CallForm} {args args' : List Temp} {array result result' : Temp}

section

variable (h : b.Unpacks G c)

include h

theorem temps_eq : c.temps = b.temps := by
  rw [h.folded]

theorem code_eq : c.code = G.map Segment.folded := by
  rw [h.folded]

theorem array_notMem {t : Temp} (ht : t ∈ c.code.flatMap Instr.temps) :
    t ∉ G.filterMap Segment.array? := by
  intro harray
  obtain ⟨i, hi, hti⟩ := List.mem_flatMap.1 ht
  exact h.unread t harray i hi hti

/-- Of the temps that are left, the same is known. -/
theorem facts (registry : Registry) :
    (factsOf b registry).Agree id (c.code.flatMap Instr.temps) (factsOf c registry) := by
  have hclasses : receiverClasses c = receiverClasses b := by
    unfold receiverClasses
    rw [h.first, Segment.foldl_step_first, h.folded]
  refine ⟨rfl, fun t _ => ?_, fun t ht => ?_, fun t ht => ?_⟩
  · dsimp only [factsOf]
    rw [hclasses, id]
  · dsimp only [factsOf]
    rw [id, c.getElem?_useCounts, b.getElem?_useCounts, h.temps_eq, h.first, h.code_eq,
      Segment.readCount_first, List.count_eq_zero_of_not_mem (h.array_notMem ht), Nat.add_zero]
  · dsimp only [factsOf]
    rw [id, length_packings, length_packings, h.temps_eq, h.first, h.code_eq,
      Segment.lastPacking_first (h.array_notMem ht)]

/-- An array that is unpacked has one reader. -/
theorem uses_array (registry : Registry) {a : Temp} (ha : a ∈ G.filterMap Segment.array?) :
    (factsOf b registry).uses[a.index]? = some 1 := by
  have hunread : readCount (G.map Segment.folded) a = 0 := by
    refine List.count_eq_zero_of_not_mem fun hmem => ?_
    obtain ⟨i, hi, hai⟩ := List.mem_flatMap.1 hmem
    exact h.unread a ha i (h.code_eq ▸ hi) (List.mem_append_right _ hai)
  dsimp only [factsOf]
  rw [b.getElem?_useCounts, if_pos (h.arrays a ha), h.first, Segment.readCount_first, hunread,
    List.count_eq_one_of_mem h.nodup ha]

/-- An array that is unpacked has the arguments of the call that takes its place. -/
theorem packing_array (registry : Registry)
    (hg : .packed form form' result result' array args args' ∈ G) :
    (factsOf b registry).packings[array.index]?.join.map (·.2.length) = some args.length := by
  have harray : array ∈ G.filterMap Segment.array? := List.mem_filterMap.2 ⟨_, hg, rfl⟩
  have hnodup := h.nodup
  have hunread : ∀ i ∈ G.map Segment.folded, packing? array i = none := by
    intro i hi
    unfold packing?
    split
    · refine if_neg fun heq => h.unread array harray _ (h.code_eq ▸ hi) ?_
      rw [heq]
      exact (.head _)
    · rfl
  dsimp only [factsOf]
  rw [length_packings, if_pos (h.arrays array harray), h.first]
  obtain ⟨front, rest, rfl⟩ := List.mem_iff_append.1 hg
  have hrest : array ∉ rest.filterMap Segment.array? := by
    rw [List.filterMap_append,
      List.filterMap_cons_some (show Segment.array? (.packed ..) = some array from rfl)] at hnodup
    exact (List.nodup_cons.1 (List.nodup_append.1 hnodup).2.1).1
  have hlast : lastPacking array (rest.map Segment.folded) = none :=
    lastPacking_eq_none fun i hi => hunread i (by
      simp only [List.map_append, List.map_cons, List.mem_append, List.mem_cons]
      tauto)
  have hpack : packing? array (.define array (.packArguments args)) = some args := if_pos rfl
  have hcall : packing? array (.define result (form.packed array)) = none := by cases form <;> rfl
  rw [List.flatMap_append, List.flatMap_cons, lastPacking_append, lastPacking_append,
    Segment.lastPacking_first hrest, hlast]
  simp [Segment.first, lastPacking, hpack, hcall]

/-- A call is bound with the array or without it. -/
theorem bind?_packed (hg : .packed form form' result result' array args args' ∈ G) :
    (MemberBinding.bind? (factsOf b registry) (.define result (form.packed array))).isSome
      = (MemberBinding.bind? (factsOf c registry) (.define result (form.fixed args))).isSome := by
  cases form with
  | value function scopes => rfl
  | member receiver name =>
    have hreceiver : receiver ∈ c.code.flatMap Instr.temps := by
      refine List.mem_flatMap.2 ⟨_, h.code_eq ▸ List.mem_map_of_mem hg, ?_⟩
      exact .tail _ (.head _)
    obtain ⟨entry, hentry, hlength⟩ := Option.map_eq_some_iff.1 (h.packing_array registry hg)
    have huses := h.uses_array registry (List.mem_filterMap.2 ⟨_, hg, rfl⟩)
    refine (isSome_bind?_packed ..).trans ?_
    rw [hentry, huses]
    refine Eq.trans ?_ (isSome_bind?_fixed ..).symm
    exact ((h.facts registry).bindCall? result result name hreceiver hlength.symm).symm

/-- Unpacking does not change the number of calls that are bound. -/
theorem bindMemberCalls (registry : Registry) :
    (c.bindMemberCalls registry).2 = (b.bindMemberCalls registry).2 := by
  have hsegment : ∀ g ∈ G, (Segment.first g).countP
        (fun i => (MemberBinding.bind? (factsOf b registry) i).isSome)
      = [g.folded].countP fun i => (MemberBinding.bind? (factsOf c registry) i).isSome := by
    intro g hg
    cases g with
    | single i i' =>
      have huses : i.uses ⊆ c.code.flatMap Instr.temps := fun t ht =>
        List.mem_flatMap.2 ⟨i, h.code_eq ▸ List.mem_map_of_mem hg, List.mem_append_right _ ht⟩
      have hsame := (h.facts registry).bind? huses
      rw [Instr.rename_id] at hsame
      simp only [Segment.first, Segment.folded, List.countP_singleton, hsame]
    | packed form form' result result' array args args' =>
      have hpack : (MemberBinding.bind? (factsOf b registry)
        (.define array (.packArguments args))).isSome = false := rfl
      simp only [Segment.first, Segment.folded, List.countP_cons, List.countP_nil, hpack,
        h.bind?_packed hg]
      simp
  rw [c.bindMemberCalls_count, b.bindMemberCalls_count, h.first, h.code_eq]
  clear h
  induction G with
  | nil => rfl
  | cons g G ih =>
    obtain ⟨hg, hG⟩ := List.forall_mem_cons.1 hsegment
    rw [List.flatMap_cons, List.countP_append, ← ih hG, hg, List.map_cons, ← List.singleton_append,
      List.countP_append]

end

end Body.Unpacks

/-! ### Whole functions -/

/-- The two outcomes are the same but for the temps and for argument arrays that feed a call right
behind them: no body on either side, for the same reason and with the same events, or bodies of the
same shape in which the same number of member calls is bound. -/
inductive Outcome.SameShape (registry : Registry) : Outcome → Outcome → Prop
  | halted (halt : Halt) (events : List Event) :
      SameShape registry ⟨.error halt, events⟩ ⟨.error halt, events⟩
  | lowered {b b' : Body} {events events' : List Event} (ρ : Equiv.Perm Temp)
      (shape : b.foldCalls.RenamedBy ρ b'.foldCalls)
      (bound : (b'.bindMemberCalls registry).2 = (b.bindMemberCalls registry).2) :
      SameShape registry ⟨.ok b, events⟩ ⟨.ok b', events'⟩

theorem Outcome.SameShape.symm {registry : Registry} {o o' : Outcome}
    (h : o.SameShape registry o') : o'.SameShape registry o := by
  cases h with
  | halted halt events => exact .halted halt events
  | lowered ρ hshape hbound => exact .lowered ρ.symm hshape.symm hbound.symm

theorem Context.ofFunction?_arity (tree : ScopeTree) (registry : Registry)
    (options options' : Options) (f : Function) : Context.ofFunction? tree registry options' f
      = (Context.ofFunction? tree registry options f).map (·.withArity options'.fixedArity) := by
  unfold Context.ofFunction?
  cases tree.chainLayout? f.scope <;> cases tree.capturedBindings? f.scope <;>
    cases tree.scope? f.scope <;> rfl

/-- The first lowering has the smaller bound for the fixed arity. -/
theorem Function.lower_sameShape_of_le (f : Function) (tree : ScopeTree) (registry : Registry)
    {options options' : Options} (hle : options.fixedArity ≤ options'.fixedArity) :
    (f.lower tree registry options).SameShape registry (f.lower tree registry options') := by
  unfold Function.lower
  rw [Context.ofFunction?_arity tree registry options options' f]
  cases hctx : Context.ofFunction? tree registry options f with
  | none => exact .halted _ _
  | some ctx =>
    have harity : ctx.fixedArity = options.fixedArity := by
      unfold Context.ofFunction? at hctx
      simp only [Option.bind_eq_bind, Option.bind_eq_some_iff] at hctx
      obtain ⟨_, -, _, -, _, -, hctx⟩ := hctx
      rw [← Option.some.inj hctx]
    rw [Option.map_some]
    dsimp only
    obtain ⟨halt, s, s', hrun, hrun', hevents⟩ | ⟨w, s, s', event, event', hs, hrun, hrun'⟩ :=
      Lower.wholeFunction_aligned (harity.trans_le hle)
    · rw [hrun, hrun']
      dsimp only
      rw [hevents]
      exact .halted _ _
    · rw [hrun, hrun']
      obtain ⟨G, ρ, c, hunpacks, hrenamed⟩ := hs.toBody f
      refine .lowered ρ ?_ ?_
      · have hshape := hrenamed.foldCalls
        rw [← hunpacks.foldCalls] at hshape
        exact hshape
      · exact (hrenamed.bindMemberCalls registry).trans (hunpacks.bindMemberCalls registry)

/-- Whatever the options, a function is declined for the same reason and with the same events, or it
is lowered to the same body, up to the names of the temps and to argument arrays that feed the call
right behind them; and the same number of its member calls is bound early. -/
theorem Function.lower_sameShape (f : Function) (tree : ScopeTree) (registry : Registry)
    (options options' : Options) :
    (f.lower tree registry options).SameShape registry (f.lower tree registry options') := by
  rcases Nat.le_total options.fixedArity options'.fixedArity with hle | hle
  · exact f.lower_sameShape_of_le tree registry hle
  · exact (f.lower_sameShape_of_le tree registry hle).symm

end ScriptLowering
