import ScriptLowering.Proofs.Trim
import ScriptLowering.Proofs.WriteOnce.Track

/-!
# Revisions of code

A pass goes through the instructions of a body and says of each of them what takes its place, if
anything does. `Revision` is such a list of decisions, with the code in front of the pass on its
left and the code behind it on its right. Two facts make a revision harmless to temps: an
instruction gives way only to one that defines the same temp (`Instr.Becomes`), and what takes its
place reads only temps whose definitions stand further up and are not dropped (`Revision.Sound`).

How often a temp is read is counted once, in front of a pass. Where it is read once, two different
readers contradict each other (`two_le_count_flatMap`), and this is what makes a dropped definition
safe.
-/

namespace ScriptLowering

/-- What the passes put in the place of an instruction. -/
inductive Instr.Becomes : Instr → Instr → Prop
  | same (i : Instr) : Becomes i i
  /-- A repeated coercion copies the earlier result. -/
  | reuse {result source previous : Temp} {kind : Coercion} :
    Becomes (.define result (.coerce kind source)) (.define result (.copy previous))
  /-- A field is stored without the boxing of its value. -/
  | unbox {receiver boxed source : Temp} {className field : String} {ty : Option ValueType} :
    Becomes (.perform (.storeField receiver className field ty boxed))
      (.perform (.storeField receiver className field ty source))
  /-- An array is its own array of items. -/
  | array {result source : Temp} :
    Becomes (.define result (.normalizeIterable source)) (.define result (.copy source))
  | load {result : Temp} {slot slot' : Slot} :
    Becomes (.define result (.loadSlot slot)) (.define result (.loadSlot slot'))
  | store {value : Temp} {slot slot' : Slot} :
    Becomes (.perform (.storeSlot slot value)) (.perform (.storeSlot slot' value))
  /-- A member call is bound early. -/
  | bindFixed {result receiver : Temp} {name className : String} {callable : Callable}
    {args : List Temp} {guarded : Bool} :
    Becomes (.define result (.callMemberFixed receiver name args))
      (.define result (.callTyped guarded className name callable receiver args))
  /-- A member call is bound early and takes its argument array apart. -/
  | bindPacked {result receiver packed : Temp} {name className : String} {callable : Callable}
    {args : List Temp} {guarded : Bool} :
    Becomes (.define result (.callMember receiver name packed))
      (.define result (.callTyped guarded className name callable receiver args))

theorem Instr.Becomes.result?_eq {i i' : Instr} (h : i.Becomes i') : i'.result? = i.result? := by
  cases h <;> rfl

theorem Instr.Becomes.soft {i i' : Instr} (h : i.Becomes i') :
    i' = i ∨ i.isSoft = true ∧ i'.isSoft = true := by
  cases h with
  | same => exact .inl rfl
  | _ => exact .inr ⟨rfl, rfl⟩

theorem Instr.Becomes.trans {i i' i'' : Instr} (h : i.Becomes i') (h' : i'.Becomes i'') :
    i.Becomes i'' := by
  cases h with
  | same => exact h'
  | reuse => cases h'; exact .reuse
  | unbox =>
    cases h' with
    | same => exact .unbox
    | unbox => exact .unbox
  | array => cases h'; exact .array
  | load =>
    cases h' with
    | same => exact .load
    | load => exact .load
  | store =>
    cases h' with
    | same => exact .store
    | store => exact .store
  | bindFixed => cases h'; exact .bindFixed
  | bindPacked => cases h'; exact .bindPacked

/-! ### Revisions -/

/-- Instructions, each with what takes its place. -/
abbrev Revision := List (Instr × Option Instr)

namespace Revision

/-- The code in front of the pass. -/
def before (r : Revision) : List Instr :=
  r.map Prod.fst

/-- The code behind the pass. -/
def behind (r : Revision) : List Instr :=
  r.filterMap Prod.snd

/-- The temps whose definitions are dropped. -/
def dropped (r : Revision) : List Temp :=
  r.filterMap fun (i, i') => if i'.isNone then i.result? else none

variable {r front rest : Revision} {i i' : Instr} {t : Temp}

@[simp]
theorem before_append (r r' : Revision) : before (r ++ r') = r.before ++ r'.before :=
  List.map_append

@[simp]
theorem behind_append (r r' : Revision) : behind (r ++ r') = r.behind ++ r'.behind :=
  List.filterMap_append

@[simp]
theorem before_cons (p : Instr × Option Instr) (r : Revision) :
    before (p :: r) = p.1 :: r.before :=
  rfl

@[simp]
theorem behind_cons (p : Instr × Option Instr) (r : Revision) :
    behind (p :: r) = p.2.toList ++ r.behind := by
  obtain ⟨i, _ | i'⟩ := p <;> rfl

@[simp]
theorem before_nil : before [] = [] :=
  rfl

@[simp]
theorem behind_nil : behind [] = [] :=
  rfl

theorem mem_before {o : Option Instr} (h : (i, o) ∈ r) : i ∈ r.before :=
  List.mem_map_of_mem (f := Prod.fst) h

theorem mem_dropped : t ∈ r.dropped ↔ ∃ i, (i, none) ∈ r ∧ i.result? = some t := by
  simp only [dropped, List.mem_filterMap, Prod.exists]
  constructor
  · rintro ⟨i, _ | i', hmem, h⟩
    · exact ⟨i, hmem, h⟩
    · cases h
  · rintro ⟨i, hmem, h⟩
    exact ⟨i, none, hmem, h⟩

/-- The position of an instruction behind the pass splits the revision. -/
theorem exists_split {n : Nat} (h : r.behind[n]? = some i') :
    ∃ (front : Revision) (i : Instr) (rest : Revision),
      r = front ++ (i, some i') :: rest ∧ front.behind = r.behind.take n := by
  induction r generalizing n with
  | nil => cases h
  | cons p r ih =>
    obtain ⟨j, _ | j'⟩ := p
    · obtain ⟨front, i, rest, rfl, htake⟩ := ih h
      exact ⟨(j, none) :: front, i, rest, rfl, htake⟩
    · cases n with
      | zero =>
        obtain rfl : j' = i' := by simpa using h
        exact ⟨[], j, r, rfl, rfl⟩
      | succ n =>
        obtain ⟨front, i, rest, rfl, htake⟩ := ih (n := n) (by simpa using h)
        exact ⟨(j, some j') :: front, i, rest, rfl, by simpa using htake⟩

/-- Instructions give way only to what the passes put in their places. -/
def Allowed (r : Revision) : Prop :=
  ∀ {i i' : Instr}, (i, some i') ∈ r → i.Becomes i'

theorem Allowed.tail {p : Instr × Option Instr} (h : Allowed (p :: r)) : r.Allowed :=
  fun hmem => h (.tail _ hmem)

/-- A revision that drops soft instructions only trims the code. -/
theorem trims (r : Revision) (h : ∀ i o, (i, o) ∈ r → o.elim (i.isSoft = true) i.Becomes) :
    Trims r.before r.behind := by
  induction r with
  | nil => exact .nil
  | cons p r ih =>
    have ih := ih fun i o hmem => h i o (.tail _ hmem)
    obtain ⟨i, _ | i'⟩ := p
    · exact .drop (h i none (.head _)) ih
    · rcases (h i (some i') (.head _) : i.Becomes i').soft with rfl | ⟨hi, hi'⟩
      · exact .keep _ ih
      · exact .change hi hi' ih

/-- The instructions that survive keep their order. -/
theorem sublistForall₂ (h : r.Allowed) :
    List.SublistForall₂ (fun i' i => i.Becomes i') r.behind r.before := by
  induction r with
  | nil => exact .nil
  | cons p r ih =>
    obtain ⟨i, _ | i'⟩ := p
    · exact .cons_right (ih h.tail)
    · exact .cons (h (.head _)) (ih h.tail)

/-- What is defined behind the pass was defined in front of it, in the same order. -/
theorem definedTemps_sublist (h : r.Allowed) :
    (definedTemps r.behind).Sublist (definedTemps r.before) := by
  induction r with
  | nil => exact .refl _
  | cons p r ih =>
    obtain ⟨i, _ | i'⟩ := p
    · refine (ih h.tail).trans ?_
      exact (List.sublist_cons_self i (before r)).filterMap _
    · have hresult := (h (.head _)).result?_eq
      rw [before_cons, behind_cons, definedTemps, definedTemps, Option.toList_some,
        List.singleton_append]
      cases hi : i.result? with
      | none =>
        rw [List.filterMap_cons_none hi, List.filterMap_cons_none (hresult.trans hi)]
        exact ih h.tail
      | some t =>
        rw [List.filterMap_cons_some hi, List.filterMap_cons_some (hresult.trans hi)]
        exact (ih h.tail).cons_cons t

/-- A definition is dropped or still there. -/
theorem mem_definedTemps_behind (h : r.Allowed) (ht : t ∈ definedTemps r.before)
    (hkept : t ∉ r.dropped) : t ∈ definedTemps r.behind := by
  obtain ⟨i, hi, hresult⟩ := List.mem_filterMap.1 ht
  obtain ⟨⟨i, o⟩, hmem, rfl⟩ := List.mem_map.1 hi
  cases o with
  | none => exact absurd (mem_dropped.2 ⟨i, hmem, hresult⟩) hkept
  | some i' =>
    exact List.mem_filterMap.2
      ⟨i', List.mem_filterMap.2 ⟨_, hmem, rfl⟩, (h hmem).result?_eq.trans hresult⟩

/-- Every instruction gives way to one that reads what is defined further up and stays. -/
structure Sound (r : Revision) : Prop where
  allowed : r.Allowed
  reads : ∀ {front rest : Revision} {i i' : Instr}, r = front ++ (i, some i') :: rest →
    i'.uses ⊆ definedTemps front.before
  keeps : ∀ {i i' : Instr}, (i, some i') ∈ r → ∀ t ∈ i'.uses, t ∉ r.dropped

theorem Sound.usesDefined (h : r.Sound) : UsesDefined r.behind := by
  intro n i' hi' t ht
  obtain ⟨front, i, rest, rfl, htake⟩ := exists_split hi'
  rw [← htake]
  have hkept := h.keeps (List.mem_append_right front (.head rest)) t ht
  refine mem_definedTemps_behind (fun hmem => h.allowed (List.mem_append_left _ hmem))
    (h.reads rfl ht) fun hdropped => hkept ?_
  obtain ⟨j, hj, hresult⟩ := mem_dropped.1 hdropped
  exact mem_dropped.2 ⟨j, List.mem_append_left _ hj, hresult⟩

/-- Where no definition is dropped it is enough that every reader reads what is defined further
up. -/
theorem Sound.of_dropped_eq_nil (hallowed : r.Allowed) (hdropped : r.dropped = [])
    (hreads : ∀ {front rest : Revision} {i i' : Instr}, r = front ++ (i, some i') :: rest →
      i'.uses ⊆ definedTemps front.before) : r.Sound :=
  ⟨hallowed, hreads, fun _ t _ => by rw [hdropped]; exact List.not_mem_nil⟩

/-- What an instruction in the middle of the revision reads. -/
theorem uses_subset (h : UsesDefined r.before) {o : Option Instr}
    (hr : r = front ++ (i, o) :: rest) : i.uses ⊆ definedTemps front.before := by
  subst hr
  have := h front.before.length i (by simp)
  simpa using this

end Revision

/-! ### Reads -/

/-- How often the code reads a temp. -/
def readCount (code : List Instr) (t : Temp) : Nat :=
  (code.flatMap Instr.uses).count t

section Reads

variable {code : List Instr} {t : Temp} {i j : Instr}

theorem readCount_append (code code' : List Instr) (t : Temp) :
    readCount (code ++ code') t = readCount code t + readCount code' t := by
  rw [readCount, List.flatMap_append, List.count_append]
  rfl

theorem readCount_cons (i : Instr) (code : List Instr) (t : Temp) :
    readCount (i :: code) t = i.uses.count t + readCount code t := by
  rw [readCount, List.flatMap_cons, List.count_append]
  rfl

theorem count_le_readCount (hi : i ∈ code) : i.uses.count t ≤ readCount code t := by
  obtain ⟨front, rest, rfl⟩ := List.mem_iff_append.1 hi
  rw [readCount_append, readCount_cons]
  omega

/-- What two positions of a list give rise to is counted twice. -/
theorem two_le_count_flatMap {α β : Type} [BEq β] [LawfulBEq β] {f : α → List β} {l : List α} {a : β}
    {n m : Nat} {x y : α} (hx : l[n]? = some x) (hy : l[m]? = some y) (hne : n ≠ m) (hax : a ∈ f x)
    (hay : a ∈ f y) : 2 ≤ (l.flatMap f).count a := by
  wlog hlt : n < m generalizing n m x y
  · exact this hy hx hne.symm hay hax (by omega)
  have hfirst : a ∈ (l.take m).flatMap f := by
    refine List.mem_flatMap.2 ⟨x, List.mem_of_getElem? (i := n) ?_, hax⟩
    rw [List.getElem?_take_of_lt hlt, hx]
  have hsecond : a ∈ (l.drop m).flatMap f := by
    refine List.mem_flatMap.2 ⟨y, List.mem_of_getElem? (i := 0) ?_, hay⟩
    rw [List.getElem?_drop, Nat.add_zero, hy]
  rw [← l.take_append_drop m, List.flatMap_append, List.count_append]
  have := List.count_pos_iff.2 hfirst
  have := List.count_pos_iff.2 hsecond
  omega

/-- A value that occurs once among the images of a list comes from one position. -/
theorem index_unique_of_count {α β : Type} [BEq β] [LawfulBEq β] {f : α → Option β} {l : List α} {a : β}
    (h : (l.filterMap f).count a ≤ 1) {n m : Nat} {x y : α} (hx : l[n]? = some x) (hy : l[m]? = some y)
    (hax : f x = some a) (hay : f y = some a) : n = m := by
  by_contra hne
  rw [List.filterMap_eq_flatMap_toList] at h
  exact absurd (two_le_count_flatMap hx hy hne (Option.mem_toList.2 hax) (Option.mem_toList.2 hay))
    (Nat.not_le.2 (Nat.lt_succ_of_le h))

/-- Counting a list of reads. -/
theorem getElem?_foldl_modify (ts : List Temp) (counts : Array Nat) (t : Temp) :
    (ts.foldl (fun counts t => counts.modify t.index (· + 1)) counts)[t.index]?
      = counts[t.index]?.map (· + ts.count t) := by
  induction ts generalizing counts with
  | nil => simp
  | cons t' ts ih =>
    rw [List.foldl_cons, ih, Array.getElem?_modify, List.count_cons]
    by_cases heq : t' = t
    · subst heq
      cases counts[t'.index]? with
      | none => simp
      | some c => simp; omega
    · have hindex : t'.index ≠ t.index := fun h => heq (congrArg Temp.mk h)
      simp [heq, hindex]

theorem Body.getElem?_useCounts (b : Body) (t : Temp) :
    b.useCounts[t.index]? = if t.index < b.temps.size then some (readCount b.code t) else none := by
  suffices hfold : ∀ (code : List Instr) (counts : Array Nat),
      (code.foldl (fun counts i => i.uses.foldl
        (fun counts t => counts.modify t.index (· + 1)) counts) counts)[t.index]?
        = counts[t.index]?.map (· + readCount code t) by
    rw [Body.useCounts, hfold, Array.getElem?_replicate]
    split <;> simp
  intro code
  induction code with
  | nil => intro counts; simp [readCount]
  | cons i code ih =>
    intro counts
    rw [List.foldl_cons, ih, getElem?_foldl_modify, readCount_cons, Option.map_map]
    congr 1
    funext c
    simp only [Function.comp_apply]
    omega

/-- The table of use counts is right about the temps that it has. -/
theorem Body.readCount_of_useCounts {b : Body} {n : Nat} (h : b.useCounts[t.index]? = some n) :
    readCount b.code t = n := by
  rw [b.getElem?_useCounts] at h
  split at h
  · exact Option.some.inj h
  · cases h

end Reads

end ScriptLowering
