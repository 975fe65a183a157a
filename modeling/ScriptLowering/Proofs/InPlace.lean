import ScriptLowering.Proofs.Revision.Passes

/-!
# The passes in place

The passes can be carried out on the code where it stands: a loop over the positions reads an
instruction, sometimes one further up, writes another one in its place or marks it, and in the end
the marked instructions are taken out. Such a loop fails if it reads, writes or marks at a position
that the code does not have. None of the loops ever does, whatever the body, and each does what the
pass does.

The tables of temps and slots are of no concern here: what they do not list has no descriptor and no
use count, and nothing is recorded about it.

## Main definitions

* `writeAt?`, `retain`: what the loops are made of;
* `Body.reuseCoercions?`, `Body.normalizeTypes?`, `Body.bindMemberCalls?`: the passes in place.

## Main results

* `reuseCoercions?_eq`, `normalizeTypes?_eq`, `bindMemberCalls?_eq`: they fail on no body, and give
  what the passes give.
-/

namespace ScriptLowering

/-! ### Changes in place -/

/-- Writes at a position that must be there. -/
def writeAt? {α : Type} (table : Array α) (index : Nat) (a : α) : Option (Array α) :=
  if index < table.size then some (table.setIfInBounds index a) else none

/-- Code in which instructions are marked, with the number of changes so far. -/
structure Marked where
  code : Array Instr
  gone : Array Bool
  count : Nat := 0

/-- Takes out the marked instructions. Where no mark is left, the instruction stays. -/
def retain : List Bool → List Instr → List Instr
  | _, [] => []
  | [], code => code
  | flag :: flags, i :: code => if flag then retain flags code else i :: retain flags code

section Loops

variable {σ : Type} {α : Type}

/-- A loop over positions is a walk along the code: what holds in front of an instruction leads over
it to what holds behind it. -/
theorem foldlM_positions {step : σ → Nat → Option σ} (P : List α → List α → σ → Prop)
    (front : List α) {rest : List α} {state : σ} (hstart : P front rest state)
    (hstep : ∀ front a rest state, P front (a :: rest) state →
      ∃ next, step state front.length = some next ∧ P (front ++ [a]) rest next) :
    ∃ final, (List.range' front.length rest.length).foldlM step state = some final ∧
      P (front ++ rest) [] final := by
  induction rest generalizing front state with
  | nil => exact ⟨state, rfl, by rwa [List.append_nil]⟩
  | cons a rest ih =>
    obtain ⟨next, hnext, hP⟩ := hstep front a rest state hstart
    obtain ⟨final, hfinal, hP'⟩ := ih (front ++ [a]) hP
    refine ⟨final, ?_, by rwa [List.append_assoc] at hP'⟩
    rw [List.length_append] at hfinal
    rw [List.length_cons, List.range'_succ, List.foldlM_cons, hnext]
    exact hfinal

variable {front rest : List α} {a : α} {table : Array α}

/-- The instruction behind those that were visited. -/
theorem getElem?_behind (h : table.toList = front ++ a :: rest) : table[front.length]? = some a := by
  rw [← Array.getElem?_toList, h, List.getElem?_append_right le_rfl, Nat.sub_self]
  rfl

/-- A change of the instruction behind those that were visited. -/
theorem writeAt?_behind (h : table.toList = front ++ a :: rest) (a' : α) :
    ∃ table', writeAt? table front.length a' = some table' ∧ table'.toList = front ++ a' :: rest := by
  refine ⟨table.setIfInBounds front.length a', if_pos ?_, ?_⟩
  · rw [← Array.length_toList, h, List.length_append, List.length_cons]
    omega
  · rw [Array.toList_setIfInBounds, h, List.set_append_right _ _ le_rfl, Nat.sub_self]
    rfl

end Loops

section Retain

variable {flags : List Bool} {code : List Instr}

theorem retain_append (h : flags.length = code.length) (flags' : List Bool) (code' : List Instr) :
    retain (flags ++ flags') (code ++ code') = retain flags code ++ retain flags' code' := by
  induction flags generalizing code with
  | nil =>
    obtain rfl : code = [] := List.length_eq_zero_iff.1 h.symm
    cases flags' <;> rfl
  | cons flag flags ih =>
    cases code with
    | nil => cases h
    | cons i code =>
      have hrest := ih (Nat.succ.inj h)
      cases flag
      · exact congrArg (i :: ·) hrest
      · exact hrest

theorem retain_eq_filterMap (flags : List Bool) (code : List Instr) (start : Nat) :
    retain flags code = (code.zipIdx start).filterMap fun entry =>
      if flags[entry.2 - start]? == some true then none else some entry.1 := by
  induction code generalizing flags start with
  | nil => cases flags <;> rfl
  | cons i code ih =>
    have hshift : ∀ entry ∈ code.zipIdx (start + 1), ∃ k, entry.2 - start = k + 1 ∧
        entry.2 - (start + 1) = k := fun entry hentry =>
      ⟨entry.2 - (start + 1), by have := List.le_snd_of_mem_zipIdx hentry; omega, rfl⟩
    rw [List.zipIdx_cons, List.filterMap_cons]
    cases flags with
    | nil =>
      have hnil := ih [] (start + 1)
      have hcode : retain [] code = code := by cases code <;> rfl
      simp only [List.getElem?_nil] at hnil ⊢
      rw [hcode] at hnil
      exact congrArg (i :: ·) hnil
    | cons flag flags =>
      have hrest := ih flags (start + 1)
      have hcongr : (code.zipIdx (start + 1)).filterMap (fun entry =>
            if (flag :: flags)[entry.2 - start]? == some true then none else some entry.1)
          = retain flags code := by
        rw [hrest]
        refine List.filterMap_congr fun entry hentry => ?_
        obtain ⟨k, hk, hk'⟩ := hshift entry hentry
        rw [hk, hk', List.getElem?_cons_succ]
      rw [hcongr, Nat.sub_self, List.getElem?_cons_zero]
      cases flag <;> rfl

end Retain

/-! ### Reuse of coercions -/

namespace CoercionReuse

/-- Visits a position. -/
def Sweep.visit? (b : Body) (s : Sweep) (index : Nat) : Option Sweep := do
  let instr ← s.code[index]?
  if instr.endsBlock then return { s with available := [] }
  match instr with
  | .define result (.coerce kind source) =>
    if (b.storageOf source).isUnboxed then
      match s.available.lookup (kind, source) with
      | none => return { s with available := ((kind, source), result) :: s.available }
      | some previous =>
        if b.storageOf previous = b.storageOf result then
          let code ← writeAt? s.code index (.define result (.copy previous))
          return { s with code, count := s.count + 1 }
        else return s
    else return s
  | _ => return s

/-- A sweep in place stands where the other one does: what it has visited is what the other one has
produced. -/
structure Sweep.Stands (s sweep : Sweep) (rest : List Instr) : Prop where
  available : s.available = sweep.available
  count : s.count = sweep.count
  code : s.code.toList = sweep.code.toList ++ rest

variable {b : Body} {s sweep : Sweep} {i : Instr} {rest : List Instr}

theorem Sweep.step_of_endsBlock (h : i.endsBlock) :
    s.step b i = { s.keep i with available := [] } := by
  unfold Sweep.step
  split
  · simp [Instr.endsBlock] at h
  · exact if_pos h

theorem Sweep.Stands.visit? (h : s.Stands sweep (i :: rest)) :
    ∃ s', s.visit? b sweep.code.size = some s' ∧ s'.Stands (sweep.step b i) rest := by
  have hsize : sweep.code.size = sweep.code.toList.length := Array.length_toList.symm
  have hkeep : s.code.toList = (sweep.keep i).code.toList ++ rest := by
    simp [Sweep.keep, h.code]
  have hread : s.code[sweep.code.size]? = some i := hsize ▸ getElem?_behind h.code
  unfold Sweep.visit?
  rw [hread]
  simp only [Option.bind_eq_bind, Option.bind_some]
  by_cases hends : i.endsBlock = true
  · rw [if_pos hends, Sweep.step_of_endsBlock hends]
    exact ⟨_, rfl, rfl, h.count, hkeep⟩
  rw [if_neg hends]
  split
  · rename_i result kind source
    rw [Sweep.step]
    split
    · unfold Sweep.coercion
      rw [h.available]
      cases sweep.available.lookup (kind, source) with
      | none => exact ⟨_, rfl, rfl, h.count, hkeep⟩
      | some previous =>
        dsimp only
        split
        · obtain ⟨code, hwrite, hcode⟩ := writeAt?_behind h.code (.define result (.copy previous))
          rw [hsize, hwrite]
          exact ⟨_, rfl, rfl, congrArg (· + 1) h.count, by simp [Sweep.keep, hcode]⟩
        · exact ⟨s, rfl, h.available, h.count, hkeep⟩
    · exact ⟨_, rfl, h.available, h.count, hkeep⟩
  · rename_i hother
    have hstep : sweep.step b i = sweep.keep i := by
      unfold Sweep.step
      split
      · exact absurd rfl (hother _ _ _)
      · exact if_neg hends
    exact ⟨s, rfl, hstep ▸ h.available, hstep ▸ h.count, hstep ▸ hkeep⟩

theorem Sweep.size_foldl_step (b : Body) (code : List Instr) (s : Sweep) :
    (code.foldl (Sweep.step b) s).code.size = s.code.size + code.length := by
  induction code generalizing s with
  | nil => rfl
  | cons i code ih =>
    rw [List.foldl_cons, ih, (s.step_output b i).1, Array.size_push, List.length_cons]
    omega

end CoercionReuse

open CoercionReuse in
/-- Replaces repeated coercions in place. -/
def Body.reuseCoercions? (b : Body) : Option (Body × Nat) := do
  let s ← (List.range' 0 b.code.length).foldlM (Sweep.visit? b) { code := b.code.toArray }
  return ({ b with code := s.code.toList }, s.count)

open CoercionReuse in
theorem reuseCoercions?_eq (b : Body) : b.reuseCoercions? = some b.reuseCoercions := by
  let sweep (front : List Instr) : Sweep := front.foldl (Sweep.step b) {}
  have hloop : ∃ final, (List.range' 0 b.code.length).foldlM (Sweep.visit? b) { code := b.code.toArray }
      = some final ∧ final.Stands (sweep b.code) [] := by
    refine foldlM_positions (fun front rest (s : Sweep) => s.Stands (sweep front) rest) []
      ⟨rfl, rfl, rfl⟩ fun front i rest s h => ?_
    obtain ⟨s', hs', h'⟩ := h.visit?
    have hsize : (sweep front).code.size = front.length := by simp [sweep, Sweep.size_foldl_step]
    have hnext : sweep (front ++ [i]) = (sweep front).step b i := List.foldl_append
    exact ⟨s', hsize ▸ hs', hnext ▸ h'⟩
  obtain ⟨final, hfinal, hstands⟩ := hloop
  have hcode : final.code.toList = (sweep b.code).code.toList := by simpa using hstands.code
  unfold Body.reuseCoercions? Body.reuseCoercions
  rw [hfinal]
  simp [hcode, hstands.count, sweep]

/-! ### Type normalization -/

namespace TypeNormalization

variable {state : Array Instr × Nat} {last : Instr} {done : List (Instr × Bool)} {m : Marked}

/-- The store of the bare value, where `box` boxes it for this store alone. -/
def unboxed? (b : Body) (uses : Array Nat) (box store : Instr) : Option Instr :=
  match store, box with
  | .perform (.storeField receiver className field (some ty) value),
    .define boxed (.coerce .toObject source) =>
    let bare := b.storageOf source
    if bare.isUnboxed && uses[boxed.index]? == some 1 && value == boxed && Storage.ofType ty ==
      bare then some (.perform (.storeField receiver className field (some ty) source))
    else none
  | _, _ => none

theorem unboxFieldStore_eq (b : Body) (uses : Array Nat) (state : Array Instr × Nat) (i : Instr) :
    unboxFieldStore b uses state i = match state.1.back?.bind (unboxed? b uses · i) with
      | none => (state.1.push i, state.2)
      | some store => (state.1.pop.push store, state.2 + 1) := by
  cases hback : state.1.back? with
  | none =>
    unfold unboxFieldStore
    rw [hback]
    split
    · rename_i heq
      cases heq
    · rfl
  | some box =>
    rw [Option.bind_some]
    unfold unboxFieldStore
    rw [hback]
    fun_cases unboxed? b uses box i with
    | case1 receiver className field ty value boxed source bare hcond => exact if_pos hcond
    | case2 receiver className field ty value boxed source bare hcond => exact if_neg hcond
    | case3 =>
      split
      · rename_i heq hother
        exact (hother _ _ _ _ _ _ _ rfl (Option.some.inj heq)).elim
      · rfl

/-- Visits a position and the one before it. -/
def unboxAt? (b : Body) (uses : Array Nat) (m : Marked) (index : Nat) : Option Marked := do
  let box ← m.code[index - 1]?
  let instr ← m.code[index]?
  match unboxed? b uses box instr with
  | none => return m
  | some store =>
    let code ← writeAt? m.code index store
    let gone ← writeAt? m.gone (index - 1) true
    return { code, gone, count := m.count + 1 }

/-- Stores bare values into typed fields, in place. -/
def unboxFieldStores? (b : Body) : Option (Body × Nat) := do
  let m ← (List.range' 1 (b.code.length - 1)).foldlM (unboxAt? b b.useCounts)
    { code := b.code.toArray, gone := Array.replicate b.code.length false }
  return ({ b with code := retain m.gone.toList m.code.toList }, m.count)

/-- Where the loop stands: it has visited `done`, with marks, and then `last`, which has no mark
yet. The code without marks is that of the pass. -/
structure Stands (m : Marked) (state : Array Instr × Nat) (done : List (Instr × Bool))
    (last : Instr) (rest : List Instr) : Prop where
  code : m.code.toList = done.map Prod.fst ++ last :: rest
  gone : m.gone.toList = done.map Prod.snd ++ false :: List.replicate rest.length false
  kept : state.1.toList = retain (done.map Prod.snd) (done.map Prod.fst) ++ [last]
  count : state.2 = m.count

theorem retain_snoc (done : List (Instr × Bool)) (i : Instr) (flag : Bool) :
    retain ((done ++ [(i, flag)]).map Prod.snd) ((done ++ [(i, flag)]).map Prod.fst)
      = retain (done.map Prod.snd) (done.map Prod.fst) ++ (if flag then [] else [i]) := by
  rw [List.map_append, List.map_append, retain_append (by simp)]
  cases flag <;> rfl

theorem Stands.unboxAt?
    {i : Instr} {rest : List Instr} (h : Stands m state done last (i :: rest)) (b : Body)
    (uses : Array Nat) :
    ∃ m' flag last', unboxAt? b uses m (done.length + 1) = some m' ∧
      Stands m' (unboxFieldStore b uses state i) (done ++ [(last, flag)]) last' rest := by
  have hfront : done.length = (done.map Prod.fst).length := (List.length_map _).symm
  have hcode : m.code.toList = (done.map Prod.fst ++ [last]) ++ i :: rest := by simp [h.code]
  have hbox : m.code[done.length]? = some last := hfront ▸ getElem?_behind h.code
  have hread : m.code[done.length + 1]? = some i := by simpa using getElem?_behind hcode
  have hback : state.1.back? = some last := by
    rw [← Array.getLast?_toList, h.kept, List.getLast?_concat]
  rw [unboxFieldStore_eq, hback, Option.bind_some]
  unfold TypeNormalization.unboxAt?
  rw [Nat.add_sub_cancel, hbox, hread]
  simp only [Option.bind_eq_bind, Option.bind_some]
  cases hstore : unboxed? b uses last i with
  | none =>
    refine ⟨m, false, i, rfl, ?_, ?_, ?_, h.count⟩
    · simp [h.code]
    · simp [h.gone, List.replicate_succ]
    · rw [retain_snoc]
      simp [h.kept]
  | some store =>
    obtain ⟨code, hwrite, hcode'⟩ := writeAt?_behind hcode store
    obtain ⟨gone, hmark, hgone'⟩ := writeAt?_behind h.gone true
    simp only [List.length_append, List.length_map, List.length_singleton] at hwrite hmark
    refine ⟨⟨code, gone, m.count + 1⟩, true, store, by simp [hwrite, hmark], ?_, ?_, ?_, ?_⟩
    · simp [hcode']
    · simp [hgone', List.replicate_succ]
    · rw [retain_snoc]
      simp [h.kept]
    · exact congrArg (· + 1) h.count

/-- The code without marks, once everything is visited. -/
theorem Stands.retain_eq (h : Stands m state done last []) :
    retain m.gone.toList m.code.toList = state.1.toList := by
  rw [h.code, h.gone, retain_append (by simp), h.kept]
  rfl

theorem unboxFieldStores?_eq (b : Body) : unboxFieldStores? b = some (unboxFieldStores b) := by
  by_cases hempty : b.code = []
  · simp [unboxFieldStores?, unboxFieldStores, hempty, retain]
  obtain ⟨first, rest, hcode⟩ := List.exists_cons_of_ne_nil hempty
  let state (front : List Instr) : Array Instr × Nat :=
    front.foldl (unboxFieldStore b b.useCounts) (#[], 0)
  have hloop : ∃ final, (List.range' 1 rest.length).foldlM (unboxAt? b b.useCounts)
        { code := b.code.toArray, gone := Array.replicate b.code.length false } = some final ∧
      ∃ done last, done.length + 1 = (first :: rest).length ∧ Stands final (state (first :: rest)) done last [] := by
    refine foldlM_positions (fun front rest (m : Marked) => ∃ done last, done.length + 1 = front.length ∧
      Stands m (state front) done last rest) [first] ⟨[], first, rfl, ?_, ?_, ?_, ?_⟩
      fun front i rest m ⟨done, last, hdone, h⟩ => ?_
    · simp [hcode]
    · simp [hcode, List.replicate_succ]
    · simp [state, unboxFieldStore_eq, retain]
    · simp [state, unboxFieldStore_eq]
    · obtain ⟨m', flag, last', hm', h'⟩ := h.unboxAt? b b.useCounts
      have hnext : state (front ++ [i]) = unboxFieldStore b b.useCounts (state front) i := List.foldl_append
      exact ⟨m', hdone ▸ hm', done ++ [(last, flag)], last', by simp [hdone], hnext ▸ h'⟩
  obtain ⟨final, hfinal, done, last, -, hstands⟩ := hloop
  have hlength : b.code.length - 1 = rest.length := by rw [hcode, List.length_cons, Nat.add_sub_cancel]
  unfold unboxFieldStores? unboxFieldStores
  rw [hlength, hfinal]
  simp [hstands.retain_eq, ← hstands.count, state, hcode]

/-- Visits a position. -/
def copyArray? (b : Body) (state : Array Instr × Nat) (index : Nat) : Option (Array Instr × Nat) := do
  let instr ← state.1[index]?
  match arrayCopy? b instr with
  | none => return state
  | some copy => return (← writeAt? state.1 index copy, state.2 + 1)

/-- Copies arrays, in place. -/
def copyArrays? (b : Body) : Option (Body × Nat) := do
  let (code, count) ← (List.range' 0 b.code.length).foldlM (copyArray? b) (b.code.toArray, 0)
  return ({ b with code := code.toList }, count)

theorem copyArrays?_eq (b : Body) : copyArrays? b = some (copyArrays b) := by
  let copied (front : List Instr) : List Instr := front.map fun i => (arrayCopy? b i).getD i
  let count (front : List Instr) : Nat := front.countP fun i => (arrayCopy? b i).isSome
  have hloop : ∃ final, (List.range' 0 b.code.length).foldlM (copyArray? b) (b.code.toArray, 0) = some final ∧
      final.1.toList = copied b.code ++ [] ∧ final.2 = count b.code := by
    refine foldlM_positions (fun front rest (state : Array Instr × Nat) =>
      state.1.toList = copied front ++ rest ∧ state.2 = count front) [] ⟨rfl, rfl⟩
      fun front i rest state ⟨hcode, hcount⟩ => ?_
    have hfront : (copied front).length = front.length := List.length_map _
    have hread : state.1[front.length]? = some i := hfront ▸ getElem?_behind hcode
    unfold copyArray?
    rw [hread]
    simp only [Option.bind_eq_bind, Option.bind_some]
    cases hcopy : arrayCopy? b i with
    | none => exact ⟨state, rfl, by simp [copied, hcode, hcopy], by simp [count, hcount, hcopy]⟩
    | some copy =>
      obtain ⟨code, hwrite, hcode'⟩ := writeAt?_behind hcode copy
      rw [hfront] at hwrite
      exact ⟨(code, state.2 + 1), by simp [hwrite], by simp [copied, hcode', hcopy],
        by simp [count, hcount, hcopy]⟩
  obtain ⟨⟨code, n⟩, hfinal, hcode, hn⟩ := hloop
  rw [List.append_nil] at hcode
  unfold copyArrays? copyArrays
  rw [hfinal]
  simp only at hcode hn
  simp [hcode, hn, copied, count]

end TypeNormalization

open TypeNormalization in
/-- Carries out the four improvements in place. -/
def Body.normalizeTypes? (b : Body) : Option (Body × Nat) := do
  let (b, constructions) := typeConstructions b
  let (b, stores) ← unboxFieldStores? b
  let (b, copies) ← copyArrays? b
  let (b, slots) := compactSlots b
  return (b, constructions + stores + copies + slots)

open TypeNormalization in
theorem normalizeTypes?_eq (b : Body) : b.normalizeTypes? = some b.normalizeTypes := by
  simp [Body.normalizeTypes?, Body.normalizeTypes, unboxFieldStores?_eq, copyArrays?_eq]

/-! ### Early binding -/

namespace MemberBinding

/-- Marks the position, if there is one. -/
def markAt? (gone : Array Bool) : Option Nat → Option (Array Bool)
  | none => some gone
  | some position => writeAt? gone position true

/-- Binds the call at a position, which no longer needs the argument array that is built at another
one. -/
def bindAt? (facts : Facts) (m : Marked) (index : Nat) (result receiver : Temp) (name : String)
    (args : List Temp) (packing : Option Nat) : Option Marked := do
  match bindCall? facts result receiver name args with
  | none => return m
  | some call =>
    let gone ← markAt? m.gone packing
    return { code := ← writeAt? m.code index call, gone, count := m.count + 1 }

/-- Visits a position, and for a call with an argument array the position where the array is
built. -/
def visit? (facts : Facts) (m : Marked) (index : Nat) : Option Marked := do
  match ← m.code[index]? with
  | .define result (.callMemberFixed receiver name args) =>
    bindAt? facts m index result receiver name args none
  | .define result (.callMember receiver name packed) =>
    match facts.packings[packed.index]?.join with
    | none => return m
    | some (position, _) =>
      if facts.uses[packed.index]? == some 1 then
        match ← m.code[position]? with
        | .define _ (.packArguments args) =>
          bindAt? facts m index result receiver name args (some position)
        | _ => return m
      else return m
  | _ => return m

/-- Where the loop stands: the calls in `front` are bound, and their argument arrays are marked. -/
structure Stands (facts : Facts) (length : Nat) (m : Marked) (front rest : List Instr) : Prop where
  code : m.code.toList = front.map (fun i => replaced i (bind? facts i)) ++ rest
  gone : m.gone = takenApart length (front.map (bind? facts))
  count : m.count = (front.map (bind? facts)).countP Option.isSome

variable {facts : Facts} {m : Marked} {front rest : List Instr} {i : Instr}

/-- An instruction that is not bound is where it was. -/
theorem Stands.getElem? (h : Stands facts (front ++ rest).length m front rest) {position : Nat}
    {j : Instr} (hj : (front ++ rest)[position]? = some j) (hbind : bind? facts j = none) :
    m.code[position]? = some j := by
  rw [← Array.getElem?_toList, h.code]
  by_cases hlt : position < front.length
  · rw [List.getElem?_append_left (by simpa using hlt), List.getElem?_map]
    rw [List.getElem?_append_left hlt] at hj
    rw [hj, Option.map_some, hbind]
    rfl
  · rw [List.getElem?_append_right (by simpa using hlt), List.length_map]
    rwa [List.getElem?_append_right (by omega)] at hj

theorem Stands.bindAt? {length : Nat} (h : Stands facts length m front (i :: rest)) {result receiver : Temp}
    {name : String} {args : List Temp} {packing : Option Nat} (hpacking : ∀ p ∈ packing, p < length)
    (hbind : bind? facts i = (bindCall? facts result receiver name args).map fun call => { call, packing }) :
    ∃ m', bindAt? facts m front.length result receiver name args packing = some m' ∧
      Stands facts length m' (front ++ [i]) rest := by
  have hfront : (front.map fun i => replaced i (bind? facts i)).length = front.length := List.length_map _
  unfold MemberBinding.bindAt?
  cases hcall : bindCall? facts result receiver name args with
  | none =>
    rw [hcall, Option.map_none] at hbind
    refine ⟨m, rfl, ?_, ?_, ?_⟩
    · simp [h.code, hbind, replaced]
    · rw [List.map_append, List.map_singleton, takenApart_snoc, hbind, h.gone]
    · simp [h.count, hbind]
  | some call =>
    rw [hcall, Option.map_some] at hbind
    obtain ⟨code, hwrite, hcode⟩ := writeAt?_behind h.code call
    rw [hfront] at hwrite
    have hgone : ∃ gone, markAt? m.gone packing = some gone ∧
        gone = takenApart length ((front ++ [i]).map (bind? facts)) := by
      rw [List.map_append, List.map_singleton, takenApart_snoc, hbind, ← h.gone]
      cases packing with
      | none => exact ⟨_, rfl, rfl⟩
      | some position =>
        have hlt : position < m.gone.size := by
          rw [h.gone, size_takenApart]
          exact hpacking position rfl
        exact ⟨_, if_pos hlt, rfl⟩
    obtain ⟨gone, hmark, hgone⟩ := hgone
    refine ⟨⟨code, gone, m.count + 1⟩, ?_, ?_, hgone, ?_⟩
    · simp only [hmark, hwrite, Option.bind_eq_bind, Option.bind_some, Option.pure_def]
    · simp [hcode, hbind, replaced]
    · simp [h.count, hbind]

theorem Stands.visit? {code : List Instr} (hcode : code = front ++ i :: rest)
    (hfacts : Locates code facts.packings) (h : Stands facts code.length m front (i :: rest)) :
    ∃ m', visit? facts m front.length = some m' ∧ Stands facts code.length m' (front ++ [i]) rest := by
  subst hcode
  have hfront : (front.map fun i => replaced i (bind? facts i)).length = front.length := List.length_map _
  have hread : m.code[front.length]? = some i := hfront ▸ getElem?_behind h.code
  have hkeep : bind? facts i = none → Stands facts (front ++ i :: rest).length m (front ++ [i]) rest := by
    intro hbind
    refine ⟨by simp [h.code, hbind, replaced], ?_, by simp [h.count, hbind]⟩
    rw [List.map_append, List.map_singleton, takenApart_snoc, hbind, h.gone]
  unfold MemberBinding.visit?
  rw [hread]
  simp only [Option.bind_eq_bind, Option.bind_some]
  split
  · exact h.bindAt? (by simp) rfl
  · rename_i result receiver name packed
    cases hpacking : facts.packings[packed.index]?.join with
    | none => exact ⟨m, rfl, hkeep (by simp [bind?, hpacking])⟩
    | some entry =>
      obtain ⟨position, args⟩ := entry
      dsimp only
      split
      · rename_i huses
        have hbuilt := hfacts _ _ _ hpacking
        rw [h.getElem? hbuilt rfl, Option.bind_some]
        refine h.bindAt? (fun p hp => ?_) ?_
        · cases hp
          exact (List.getElem?_eq_some_iff.1 hbuilt).1
        · simp only [bind?, hpacking, huses, Option.bind_eq_bind, Option.bind_some, if_true]
          cases bindCall? facts result receiver name args <;> rfl
      · rename_i huses
        exact ⟨m, rfl, hkeep (by simp [bind?, hpacking, huses])⟩
  · rename_i hfixed hpacked
    refine ⟨m, rfl, hkeep ?_⟩
    unfold bind?
    split
    · exact (hfixed _ _ _ _ rfl).elim
    · exact (hpacked _ _ _ _ rfl).elim
    · rfl

end MemberBinding

open MemberBinding in
/-- Binds member calls early, in place. -/
def Body.bindMemberCalls? (b : Body) (registry : Registry) : Option (Body × Nat) := do
  let m ← (List.range' 0 b.code.length).foldlM (visit? (factsOf b registry))
    { code := b.code.toArray, gone := Array.replicate b.code.length false }
  return ({ b with code := retain m.gone.toList m.code.toList }, m.count)

open MemberBinding in
theorem bindMemberCalls?_eq (b : Body) (registry : Registry) :
    b.bindMemberCalls? registry = some (b.bindMemberCalls registry) := by
  have hfacts : Locates b.code (factsOf b registry).packings := packings_locates b
  have hloop : ∃ final : Marked, (List.range' 0 b.code.length).foldlM (visit? (factsOf b registry))
        { code := b.code.toArray, gone := Array.replicate b.code.length false } = some final ∧
      b.code = b.code ++ [] ∧ Stands (factsOf b registry) b.code.length final b.code [] := by
    refine foldlM_positions (fun front rest (m : Marked) => b.code = front ++ rest ∧
      Stands (factsOf b registry) b.code.length m front rest) [] ⟨rfl, rfl, rfl, rfl⟩
      fun front i rest m ⟨hcode, h⟩ => ?_
    obtain ⟨m', hm', h'⟩ := h.visit? hcode hfacts
    exact ⟨m', hm', by rw [hcode, List.append_assoc]; rfl, h'⟩
  obtain ⟨final, hfinal, -, hstands⟩ := hloop
  have hcode : retain final.gone.toList final.code.toList = (b.bindMemberCalls registry).1.code := by
    rw [← behind_revision, retain_eq_filterMap _ _ 0, hstands.code, hstands.gone, List.append_nil,
      List.zipIdx_map, List.filterMap_map]
    simp [Revision.behind, revision, List.filterMap_map, revise]
  unfold Body.bindMemberCalls?
  rw [hfinal]
  simp only [Option.bind_eq_bind, Option.bind_some, hcode, hstands.count]
  rfl

end ScriptLowering
