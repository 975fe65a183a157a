import ScriptLowering.Proofs.Revision

/-!
# The passes as revisions

Each pass over the code of a body is a revision of it. This module says for each of them which
instructions give way and to what, with the facts that the pass has checked: a copied coercion has
an earlier result of the same storage, an unboxed store has a bare value of the field's own type, an
argument array that is taken apart has no other reader.
-/

namespace ScriptLowering

variable {o : Option Instr}

/-! ### Operands of definitions -/

section Operands

variable {code front rest : List Instr} {i j : Instr} {t : Temp}

/-- Wherever a temp is defined already, so is what its definition reads. -/
theorem UsesDefined.subset_of_result (h : UsesDefined (front ++ rest))
    (hnodup : (definedTemps (front ++ rest)).Nodup) (hj : j ∈ front ++ rest)
    (hresult : j.result? = some t) (ht : t ∈ definedTemps front) : j.uses ⊆ definedTemps front := by
  have hfront : j ∈ front := by
    refine (List.mem_append.1 hj).resolve_right fun hrest => ?_
    rw [definedTemps_append] at hnodup
    exact List.disjoint_of_nodup_append hnodup ht (List.mem_filterMap.2 ⟨j, hrest, hresult⟩)
  obtain ⟨k, hk⟩ := List.mem_iff_getElem?.1 hfront
  have hlt := (List.getElem?_eq_some_iff.1 hk).1
  have huses := h k j (by rwa [List.getElem?_append_left hlt])
  rw [List.take_append_of_le_length hlt.le] at huses
  exact fun t ht => ((List.take_sublist k front).filterMap _).subset (huses ht)

/-- No instruction reads what it defines. -/
theorem UsesDefined.not_mem_uses (h : UsesDefined code) (hnodup : (definedTemps code).Nodup)
    (hj : j ∈ code) (hresult : j.result? = some t) : t ∉ j.uses := by
  intro ht
  obtain ⟨n, hn⟩ := List.mem_iff_getElem?.1 hj
  obtain ⟨k, hk, i, hi, hti⟩ := h.exists_definition hn ht
  exact hk.ne (index_unique_of_count (List.nodup_iff_count_le_one.1 hnodup t) hi hn hti hresult)

end Operands

namespace Revision

variable {r : Revision}
variable {i : Instr} {P : List Instr → Instr → Option Instr → Prop} {o : Option Instr}

/-- Every entry satisfies a condition that may depend on the code further up. -/
def Each (P : List Instr → Instr → Option Instr → Prop) (r : Revision) : Prop :=
  ∀ {front rest : Revision} {i : Instr} {o : Option Instr}, r = front ++ (i, o) :: rest →
    P front.before i o

theorem Each.of_mem (h : r.Each P) (hmem : (i, o) ∈ r) : ∃ front, P front i o := by
  obtain ⟨front, rest, hr⟩ := List.mem_iff_append.1 hmem
  exact ⟨_, h hr⟩

/-- Two entries that read a temp read it twice. -/
theorem two_le_readCount_before {j : Instr} {o' : Option Instr} {t : Temp} (hi : (i, o) ∈ r)
    (hj : (j, o') ∈ r) (hne : (i, o) ≠ (j, o')) (hti : t ∈ i.uses) (htj : t ∈ j.uses) :
    2 ≤ readCount r.before t := by
  obtain ⟨n, hn⟩ := List.mem_iff_getElem?.1 hi
  obtain ⟨m, hm⟩ := List.mem_iff_getElem?.1 hj
  refine two_le_count_flatMap (n := n) (m := m) (by simp [before, hn]) (by simp [before, hm])
    (fun h => hne ?_) hti htj
  subst h
  exact Option.some.inj (hn.symm.trans hm)

end Revision

/-! ### Reuse of coercions -/

namespace CoercionReuse

variable {b : Body} {r : Revision} {front : List Instr} {n : Nat} {i : Instr}

/-- An instruction is kept, or is a coercion that copies an earlier result. -/
inductive Edit (b : Body) (front : List Instr) : Instr → Option Instr → Prop
  | keep (i : Instr) : Edit b front i (some i)
  | reuse {kind : Coercion} {source previous result : Temp} (hprevious : previous ∈ definedTemps front)
    (hstorage : b.storageOf previous = b.storageOf result) :
    Edit b front (.define result (.coerce kind source)) (some (.define result (.copy previous)))

namespace Sweep

variable (b : Body) (s : Sweep) (i : Instr)

/-- What takes the place of an instruction. -/
def output : Instr :=
  match i with
  | .define result (.coerce kind source) =>
    match s.available.lookup (kind, source) with
    | some previous =>
      if (b.storageOf source).isUnboxed ∧ b.storageOf previous = b.storageOf result then
        .define result (.copy previous)
      else i
    | none => i
  | _ => i

/-- An instruction stays, or is a coercion of an unboxed temp that an available result takes the
place of. -/
theorem output_cases : s.output b i = i ∨ ∃ result kind source previous,
    i = .define result (.coerce kind source) ∧ (b.storageOf source).isUnboxed = true ∧
      ((kind, source), previous) ∈ s.available ∧
      b.storageOf previous = b.storageOf result ∧ s.output b i = .define result (.copy previous) := by
  cases i with
  | define result op =>
    cases op with
    | coerce kind source =>
      dsimp only [output]
      cases hlookup : s.available.lookup (kind, source) with
      | none => exact .inl rfl
      | some previous =>
        dsimp only
        split
        · rename_i h
          obtain ⟨front, rest, havailable, -⟩ := List.lookup_eq_some_iff.1 hlookup
          exact .inr ⟨result, kind, source, previous, rfl, h.1, by simp [havailable], h.2, rfl⟩
        · exact .inl rfl
    | _ => exact .inl rfl
  | _ => exact .inl rfl

/-- What is available behind an instruction: nothing where a block ends, and one more result behind
the first coercion of its kind. -/
theorem step_available : (s.step b i).available = [] ∧ i.endsBlock = true ∨
    i.endsBlock = false ∧ ((s.step b i).available = s.available ∨ ∃ result kind source,
      i = .define result (.coerce kind source) ∧ (b.storageOf source).isUnboxed = true ∧
        s.output b i = i ∧ (s.step b i).available = ((kind, source), result) :: s.available) := by
  cases i with
  | define result op =>
    refine .inr ⟨rfl, ?_⟩
    cases op with
    | coerce kind source =>
      dsimp only [step, coercion]
      split
      · rename_i hbare
        cases hlookup : s.available.lookup (kind, source) with
        | none =>
          refine .inr ⟨result, kind, source, rfl, hbare, ?_, rfl⟩
          dsimp only [output]
          rw [hlookup]
        | some previous =>
          dsimp only
          split <;> exact .inl rfl
      · exact .inl rfl
    | _ => exact .inl rfl
  | perform effect => exact .inr ⟨rfl, .inl rfl⟩
  | _ => exact .inl ⟨rfl, rfl⟩

/-- Each step appends one instruction and counts it if it has changed. -/
theorem step_output : (s.step b i).code = s.code.push (s.output b i) ∧
    (s.step b i).count = s.count + if s.output b i = i then 0 else 1 := by
  cases i with
  | define result op =>
    cases op with
    | coerce kind source =>
      by_cases hbare : (b.storageOf source).isUnboxed = true
      · cases hlookup : s.available.lookup (kind, source) with
        | none => simp [step, coercion, output, hlookup, hbare, keep]
        | some previous =>
          by_cases hsame : b.storageOf previous = b.storageOf result <;>
            simp [step, coercion, output, hlookup, hbare, hsame, keep]
      · have houtput : s.output b (.define result (.coerce kind source)) =
            .define result (.coerce kind source) := by
          rcases s.output_cases b (.define result (.coerce kind source)) with
            h | ⟨_, _, _, _, heq, hbare', -, -, -⟩
          · exact h
          · cases heq
            exact absurd hbare' hbare
        simp [step, houtput, hbare, keep]
    | _ => exact ⟨rfl, by simp [output, step, keep, Instr.endsBlock]⟩
  | perform effect => exact ⟨rfl, by simp [output, step, keep, Instr.endsBlock]⟩
  | _ => exact ⟨rfl, by simp [output, step, keep, Instr.endsBlock]⟩

end Sweep

/-- The sweep in front of a position. -/
def sweepAt (b : Body) (n : Nat) : Sweep :=
  (b.code.take n).foldl (Sweep.step b) {}

theorem sweepAt_succ (h : b.code[n]? = some i) : sweepAt b (n + 1) = (sweepAt b n).step b i := by
  rw [sweepAt, List.take_add_one, h, List.foldl_append]
  rfl

theorem sweepAt_length (b : Body) : sweepAt b b.code.length = b.code.foldl (Sweep.step b) {} := by
  rw [sweepAt, List.take_length]

/-- The code that the sweep has put out. -/
theorem code_sweepAt (b : Body) (hn : n ≤ b.code.length) : (sweepAt b n).code.size = n := by
  induction n with
  | zero => rfl
  | succ n ih =>
    rw [sweepAt_succ (List.getElem?_eq_getElem hn), ((sweepAt b n).step_output b _).1, Array.size_push,
      ih (Nat.le_of_succ_le hn)]

theorem getElem?_sweepAt (b : Body) {m : Nat} (hm : m ≤ b.code.length) (hn : n < m)
    (hi : b.code[n]? = some i) : (sweepAt b m).code[n]? = some ((sweepAt b n).output b i) := by
  induction m with
  | zero => cases hn
  | succ m ih =>
    have hsize := code_sweepAt b (Nat.le_of_succ_le hm)
    rw [sweepAt_succ (List.getElem?_eq_getElem hm), ((sweepAt b m).step_output b _).1,
      Array.getElem?_push, hsize]
    rcases Nat.lt_succ_iff_lt_or_eq.1 hn with hlt | rfl
    · rw [if_neg (Nat.ne_of_lt hlt), ih (Nat.le_of_succ_le hm) hlt]
    · rw [if_pos rfl, Option.some.inj ((List.getElem?_eq_getElem hm).symm.trans hi)]

/-- The instructions behind the pass. -/
theorem getElem?_reuseCoercions (b : Body) (n : Nat) :
    b.reuseCoercions.1.code[n]? = (b.code[n]?).map ((sweepAt b n).output b) := by
  have hcode : b.reuseCoercions.1.code = (sweepAt b b.code.length).code.toList := by
    rw [sweepAt_length]
    rfl
  rw [hcode, Array.getElem?_toList]
  cases hi : b.code[n]? with
  | none =>
    rw [Option.map_none, Array.getElem?_eq_none_iff, code_sweepAt b le_rfl]
    exact List.getElem?_eq_none_iff.1 hi
  | some i => exact getElem?_sweepAt b le_rfl (List.getElem?_eq_some_iff.1 hi).1 hi

/-- An available result comes from a coercion further up. -/
theorem exists_of_available {kind : Coercion} {source result : Temp}
    (hn : n ≤ b.code.length) (h : ((kind, source), result) ∈ (sweepAt b n).available) :
    ∃ m < n, b.code[m]? = some (.define result (.coerce kind source)) := by
  induction n with
  | zero => cases h
  | succ n ih =>
    have hi := List.getElem?_eq_getElem hn
    have hbefore : ((kind, source), result) ∈ (sweepAt b n).available →
        ∃ m < n + 1, b.code[m]? = some (.define result (.coerce kind source)) := fun h =>
      have ⟨m, hm, hcode⟩ := ih (Nat.le_of_succ_le hn) h
      ⟨m, Nat.lt_succ_of_lt hm, hcode⟩
    rw [sweepAt_succ hi] at h
    rcases (sweepAt b n).step_available b b.code[n] with
      ⟨hnil, -⟩ | ⟨-, hsame | ⟨result', kind', source', heq, -, -, hcons⟩⟩
    · rw [hnil] at h
      cases h
    · exact hbefore (hsame ▸ h)
    · rw [hcons] at h
      rcases List.mem_cons.1 h with hnew | hold
      · cases hnew
        exact ⟨n, Nat.lt_succ_self n, heq ▸ hi⟩
      · exact hbefore hold

theorem exists_revision (b : Body) :
    ∃ r : Revision, r.before = b.code ∧ r.behind = b.reuseCoercions.1.code ∧ r.Each (Edit b) := by
  let r : Revision := b.code.zipIdx.map fun p => (p.1, some ((sweepAt b p.2).output b p.1))
  have hbefore : r.before = b.code := by simp [r, Revision.before, Function.comp_def]
  refine ⟨r, hbefore, List.ext_getElem? fun n => ?_, fun {front rest i o} hr => ?_⟩
  · rw [getElem?_reuseCoercions]
    simp [r, Revision.behind, List.filterMap_map, Function.comp_def]
  have hentry : r[front.length]? = some (i, o) := by simp [hr]
  have hfront : front.before = b.code.take front.length := by
    simp [← hbefore, hr, Revision.before]
  simp only [r, List.getElem?_map, List.getElem?_zipIdx, Option.map_map, Nat.zero_add] at hentry
  obtain ⟨j, hj, heq⟩ := Option.map_eq_some_iff.1 hentry
  obtain ⟨rfl, rfl⟩ := Prod.mk.inj heq
  rcases (sweepAt b front.length).output_cases b j with
    hsame | ⟨result, kind, source, previous, rfl, -, hmem, hstorage, hcopy⟩
  · exact hsame.symm ▸ .keep j
  · obtain ⟨m, hm, hcoercion⟩ := exists_of_available (List.getElem?_eq_some_iff.1 hj).1.le hmem
    rw [← List.getElem?_take_of_lt hm, ← hfront] at hcoercion
    exact hcopy.symm ▸ .reuse (List.mem_filterMap.2 ⟨_, List.mem_of_getElem? hcoercion, rfl⟩) hstorage

theorem Edit.exists_becomes (h : Edit b front i o) : ∃ i', o = some i' ∧ i.Becomes i':= by
  cases h with
  | keep => exact ⟨_, rfl, .same _⟩
  | reuse => exact ⟨_, rfl, .reuse⟩

theorem sound_of_each (h : r.Each (Edit b)) (huses : UsesDefined r.before) : r.Sound := by
  refine .of_dropped_eq_nil (fun {i i'} hmem => ?_) ?_ fun {front rest i i'} hr => ?_
  · obtain ⟨front, hedit⟩ := h.of_mem hmem
    obtain ⟨i'', heq, hbecomes⟩ := hedit.exists_becomes
    exact Option.some.inj heq ▸ hbecomes
  · refine List.eq_nil_iff_forall_not_mem.2 fun t ht => ?_
    obtain ⟨i, hmem, -⟩ := Revision.mem_dropped.1 ht
    obtain ⟨front, hedit⟩ := h.of_mem hmem
    cases hedit
  · have hedit := h hr
    generalize ho : some i' = o at hedit
    cases hedit with
    | keep =>
      cases ho
      exact Revision.uses_subset huses hr
    | reuse hprevious =>
      cases ho
      simpa [Instr.uses, Operation.uses] using hprevious

end CoercionReuse

/-! ### Field stores -/

namespace TypeNormalization

/-- A stretch of code that the unboxing of field stores takes up: one instruction that stays, or a
boxing and the store that follows it. -/
inductive Stretch where
  | keep (i : Instr)
  | bare (receiver boxed source : Temp) (className field : String) (ty : ValueType)

namespace Stretch

/-- The boxing goes and the store takes the bare value. -/
def entries : Stretch → Revision
  | keep i => [(i, some i)]
  | bare receiver boxed source className field ty =>
    [(.define boxed (.coerce .toObject source), none),
      (.perform (.storeField receiver className field (some ty) boxed),
        some (.perform (.storeField receiver className field (some ty) source)))]

/-- The store alone reads what is boxed, and the bare value has the representation of the field. -/
def Fits (b : Body) : Stretch → Prop
  | keep _ => True
  | bare _ boxed source _ _ ty =>
    (b.storageOf source).isUnboxed = true ∧ b.useCounts[boxed.index]? = some 1 ∧
      Storage.ofType ty = b.storageOf source

end Stretch

/-- Stretches that unbox field stores, with the code in front of them and the code behind. -/
structure Unboxes (b : Body) (before behind : List Instr) (stretches : List Stretch) : Prop where
  before : Revision.before (stretches.flatMap Stretch.entries) = before
  behind : Revision.behind (stretches.flatMap Stretch.entries) = behind
  fits : ∀ stretch ∈ stretches, stretch.Fits b

/-- A revision of a body that unboxes field stores. -/
abbrev Unboxing (b : Body) (stretches : List Stretch) : Prop :=
  Unboxes b b.code (unboxFieldStores b).1.code stretches

variable {b : Body}
variable {stretches : List Stretch}

/-- Where the code so far ends with a boxing, the boxing is a stretch of its own. -/
theorem exists_of_back {code : Array Instr} {boxed source : Temp}
    (hcode : Revision.behind (stretches.flatMap Stretch.entries) = code.toList)
    (hback : code.back? = some (.define boxed (.coerce .toObject source))) :
    ∃ init, stretches = init ++ [.keep (.define boxed (.coerce .toObject source))] ∧
      Revision.behind (init.flatMap Stretch.entries) = code.pop.toList := by
  have hlast : (Revision.behind (stretches.flatMap Stretch.entries)).getLast?
      = some (.define boxed (.coerce .toObject source)) := by
    rw [hcode]
    simpa using hback
  rcases List.eq_nil_or_concat stretches with rfl | ⟨init, last, rfl⟩
  · cases hlast
  rw [List.concat_eq_append, List.flatMap_append, Revision.behind_append] at hcode hlast
  cases last with
  | bare => simp [Stretch.entries] at hlast
  | keep i =>
    obtain rfl : i = .define boxed (.coerce .toObject source) := by
      simpa [Stretch.entries] using hlast
    refine ⟨init, by simp, ?_⟩
    rw [Array.toList_pop, ← hcode]
    simp [Stretch.entries]

theorem Unboxes.snoc {front code : List Instr} {s : Stretch} (h : Unboxes b front code stretches)
    (hfits : s.Fits b) : Unboxes b (front ++ Revision.before s.entries)
      (code ++ Revision.behind s.entries) (stretches ++ [s]) where
  before := by simp [h.before]
  behind := by simp [h.behind]
  fits := List.forall_mem_append.2 ⟨h.fits, List.forall_mem_singleton.2 hfits⟩

theorem Unboxes.step {front : List Instr} {state : Array Instr × Nat}
    (h : Unboxes b front state.1.toList stretches) (i : Instr) : ∃ stretches',
      Unboxes b (front ++ [i]) (unboxFieldStore b b.useCounts state i).1.toList stretches' := by
  have hkeep : Unboxes b (front ++ [i]) (state.1.push i).toList (stretches ++ [.keep i]) := by
    simpa [Stretch.entries] using h.snoc (s := .keep i) trivial
  unfold unboxFieldStore
  split
  · rename_i receiver className field ty value boxed source hback
    dsimp only
    split
    · rename_i htest
      obtain ⟨⟨⟨hbare, huses⟩, rfl⟩, hty⟩ :
          (((b.storageOf source).isUnboxed = true ∧ b.useCounts[boxed.index]? = some 1)
            ∧ value = boxed) ∧ Storage.ofType ty = b.storageOf source := by
        simpa using htest
      obtain ⟨init, rfl, hinit⟩ := exists_of_back h.behind hback
      have hfront : Unboxes b _ state.1.pop.toList init :=
        ⟨rfl, hinit, (List.forall_mem_append.1 h.fits).1⟩
      refine ⟨init ++ [.bare receiver value source className field ty], ?_⟩
      simpa [← h.before, Stretch.entries] using hfront.snoc (s := .bare ..) ⟨hbare, huses, hty⟩
    · exact ⟨_, hkeep⟩
  · exact ⟨_, hkeep⟩

theorem Unboxing.result (h : Unboxing b stretches) : (unboxFieldStores b).1
    = { b with code := Revision.behind (stretches.flatMap Stretch.entries) } := by
  rw [h.behind]
  rfl

theorem exists_unboxing (b : Body) : ∃ stretches, Unboxing b stretches := by
  suffices h : ∀ (rest front : List Instr) (state : Array Instr × Nat) (stretches : List Stretch),
      Unboxes b front state.1.toList stretches → ∃ stretches', Unboxes b (front ++ rest)
        (rest.foldl (unboxFieldStore b b.useCounts) state).1.toList stretches' from
    h b.code [] (#[], 0) [] ⟨rfl, rfl, List.forall_mem_nil _⟩
  intro rest
  induction rest with
  | nil => exact fun front state stretches h => ⟨stretches, by simpa using h⟩
  | cons i rest ih =>
    intro front state stretches h
    obtain ⟨stretches', h'⟩ := h.step i
    simpa using ih _ _ stretches' h'

namespace Unboxing

variable {stretches : List Stretch}
variable {i i' : Instr} {className field : String} {boxed receiver source : Temp} {ty : ValueType}

/-- An entry that stays is untouched or belongs to a store without its boxing. -/
theorem mem_some (h : (i, some i') ∈ stretches.flatMap Stretch.entries) :
    i' = i ∨ ∃ receiver boxed source className field ty,
      Stretch.bare receiver boxed source className field ty ∈ stretches ∧
      i = .perform (.storeField receiver className field (some ty) boxed) ∧
      i' = .perform (.storeField receiver className field (some ty) source) := by
  obtain ⟨stretch, hstretch, hmem⟩ := List.mem_flatMap.1 h
  cases stretch with
  | keep j => exact .inl (by simp_all [Stretch.entries])
  | bare receiver boxed source className field ty =>
    exact .inr ⟨receiver, boxed, source, className, field, ty, hstretch, by
      simpa [Stretch.entries] using hmem⟩

theorem mem_none (h : (i, none) ∈ stretches.flatMap Stretch.entries) :
    ∃ receiver boxed source className field ty,
      Stretch.bare receiver boxed source className field ty ∈ stretches ∧
      i = .define boxed (.coerce .toObject source) := by
  obtain ⟨stretch, hstretch, hmem⟩ := List.mem_flatMap.1 h
  cases stretch with
  | keep j => simp [Stretch.entries] at hmem
  | bare receiver boxed source className field ty =>
    exact ⟨receiver, boxed, source, className, field, ty, hstretch, by
      simpa [Stretch.entries] using hmem⟩

theorem mem_entries_of_bare
    (h : Stretch.bare receiver boxed source className field ty ∈ stretches) :
    (.define boxed (.coerce .toObject source), none) ∈ stretches.flatMap Stretch.entries ∧
    (.perform (.storeField receiver className field (some ty) boxed),
      some (.perform (.storeField receiver className field (some ty) source)))
        ∈ stretches.flatMap Stretch.entries :=
  ⟨List.mem_flatMap.2 ⟨_, h, .head _⟩, List.mem_flatMap.2 ⟨_, h, .tail _ (.head _)⟩⟩

/-- The boxing that goes has no reader but the store behind it. -/
theorem reader_eq (h : Unboxing b stretches) (hbare : Stretch.bare receiver boxed source className field ty ∈ stretches) (hi : (i, o) ∈ stretches.flatMap Stretch.entries)
    (hread : boxed ∈ i.uses) :
    i = .perform (.storeField receiver className field (some ty) boxed) ∧
      o = some (.perform (.storeField receiver className field (some ty) source)) ∧
      receiver ≠ boxed := by
  have hone : readCount (Revision.before (stretches.flatMap Stretch.entries)) boxed = 1 := by
    rw [h.before]
    exact Body.readCount_of_useCounts (h.fits _ hbare).2.1
  have hstore := (mem_entries_of_bare hbare).2
  refine and_assoc.1 ⟨?_, fun heq => ?_⟩
  · by_contra hne
    have htwo := Revision.two_le_readCount_before hi hstore (by simpa using hne) hread
      (.tail _ (.head _))
    omega
  · have hcount := count_le_readCount (t := boxed) (Revision.mem_before hstore)
    simp only [heq, Instr.uses, Effect.uses, List.count_cons_self, List.count_nil] at hcount
    omega

/-- A bare value is what the boxing in front of the store reads. -/
theorem reads (h : Unboxing b stretches) (hnodup : (definedTemps b.code).Nodup)
    (huses : UsesDefined b.code) {front rest : Revision}
    (hsplit : stretches.flatMap Stretch.entries = front ++ (i, some i') :: rest) :
    i'.uses ⊆ definedTemps front.before := by
  rw [← h.before] at huses hnodup
  have hreads := Revision.uses_subset huses hsplit
  have hmem : (i, some i') ∈ stretches.flatMap Stretch.entries :=
    hsplit ▸ List.mem_append_right _ (.head _)
  rcases mem_some hmem with rfl | ⟨receiver, boxed, source, _, _, _, hbare, rfl, rfl⟩
  · exact hreads
  · have hboxing := Revision.mem_before (mem_entries_of_bare hbare).1
    rw [hsplit, Revision.before_append] at hboxing huses hnodup
    have hsource := huses.subset_of_result hnodup hboxing rfl (hreads (.tail _ (.head _)))
    intro t ht
    rcases List.mem_cons.1 ht with rfl | ht
    · exact hreads (.head _)
    · obtain rfl := List.mem_singleton.1 ht
      exact hsource (.head _)

theorem keeps (h : Unboxing b stretches) (hnodup : (definedTemps b.code).Nodup)
    (huses : UsesDefined b.code) {t : Temp}
    (hmem : (i, some i') ∈ stretches.flatMap Stretch.entries) (ht : t ∈ i'.uses) :
    t ∉ Revision.dropped (stretches.flatMap Stretch.entries) := by
  intro hdropped
  obtain ⟨boxing, hnone, hresult⟩ := Revision.mem_dropped.1 hdropped
  obtain ⟨receiver₀, boxed, source₀, _, _, _, hbare₀, rfl⟩ := mem_none hnone
  obtain rfl : boxed = t := Option.some.inj hresult
  rcases mem_some hmem with rfl | ⟨receiver, boxed', source, _, _, _, hbare, rfl, rfl⟩
  -- the store would keep its boxed value only if that were the bare one
  · obtain ⟨hstore, hstore', -⟩ := h.reader_eq hbare₀ hmem ht
    obtain rfl : boxed = source₀ := by simpa using hstore.symm.trans (Option.some.inj hstore')
    have hboxing := h.before ▸ Revision.mem_before hnone
    exact huses.not_mem_uses hnodup hboxing rfl (.head _)
  · rcases List.mem_cons.1 ht with rfl | ht
    · obtain ⟨hstore, -, hne⟩ := h.reader_eq hbare₀ hmem (.head _)
      have hreceiver : boxed = receiver₀ := by simp_all
      exact hne hreceiver.symm
    · obtain rfl := List.mem_singleton.1 ht
      obtain ⟨hstore, -⟩ := h.reader_eq hbare₀ (mem_entries_of_bare hbare).1 (.head _)
      cases hstore

theorem allowed : Revision.Allowed (stretches.flatMap Stretch.entries) := by
  intro i i' hmem
  rcases mem_some hmem with rfl | ⟨_, _, _, _, _, _, -, rfl, rfl⟩
  · exact .same _
  · exact .unbox

theorem sound (h : Unboxing b stretches) (hnodup : (definedTemps b.code).Nodup)
    (huses : UsesDefined b.code) : Revision.Sound (stretches.flatMap Stretch.entries) where
  allowed := allowed
  reads := h.reads hnodup huses
  keeps hmem _ ht := h.keeps hnodup huses hmem ht

end Unboxing

/-! ### Arrays -/

/-- An instruction that turns an array into an array becomes a copy, every other one stays. -/
theorem arrayCopy?_getD (b : Body) (i : Instr) :
    (arrayCopy? b i).getD i = i ∨ ∃ result source,
      i = .define result (.normalizeIterable source) ∧ (b.storageOf source).isArray = true ∧
      (arrayCopy? b i).getD i = .define result (.copy source) := by
  unfold arrayCopy?
  split
  · split
    · rename_i harray
      exact .inr ⟨_, _, rfl, harray, rfl⟩
    · exact .inl rfl
  · exact .inl rfl

/-- The revision that copies arrays. -/
def arrayRevision (b : Body) : Revision :=
  b.code.map fun i => (i, some ((arrayCopy? b i).getD i))

theorem before_arrayRevision (b : Body) : (arrayRevision b).before = b.code := by
  simp [arrayRevision, Revision.before, Function.comp_def]

theorem behind_arrayRevision (b : Body) : (arrayRevision b).behind = (copyArrays b).1.code := by
  simp [arrayRevision, Revision.behind, copyArrays]

theorem eq_of_mem_arrayRevision {i : Instr} (h : (i, o) ∈ arrayRevision b) :
    o = some ((arrayCopy? b i).getD i) := by
  obtain ⟨j, -, hj⟩ := List.mem_map.1 h
  cases hj
  rfl

theorem becomes_arrayCopy (b : Body) (i : Instr) : i.Becomes ((arrayCopy? b i).getD i) := by
  rcases arrayCopy?_getD b i with heq | ⟨result, source, rfl, -, heq⟩
  · rw [heq]
    exact .same i
  · rw [heq]
    exact .array

theorem arrayRevision_sound (huses : UsesDefined b.code) : (arrayRevision b).Sound := by
  refine .of_dropped_eq_nil (fun {i i'} h => ?_) ?_ fun {front rest i i'} hr => ?_
  · exact Option.some.inj (eq_of_mem_arrayRevision h) ▸ becomes_arrayCopy b i
  · refine List.eq_nil_iff_forall_not_mem.2 fun t ht => ?_
    obtain ⟨i, h, -⟩ := Revision.mem_dropped.1 ht
    cases eq_of_mem_arrayRevision h
  · have hreads := Revision.uses_subset ((before_arrayRevision b).symm ▸ huses) hr
    obtain rfl := Option.some.inj (eq_of_mem_arrayRevision (hr ▸ List.mem_append_right front (.head rest)))
    rcases arrayCopy?_getD b i with heq | ⟨result, source, rfl, -, heq⟩
    · rwa [heq]
    · rw [heq]
      exact hreads

/-! ### Slots -/

/-- The new number of a slot of a body. -/
def numberIn? (b : Body) (slot : Slot) : Option Slot :=
  (slotNumbers (keptSlots b))[slot.index]?.join

/-- The revision that renumbers slots. -/
def slotRevision (b : Body) : Revision :=
  b.code.map fun i => (i, renumber? (numberIn? b) i)

theorem before_slotRevision (b : Body) : (slotRevision b).before = b.code := by
  simp [slotRevision, Revision.before, Function.comp_def]

theorem behind_slotRevision (b : Body) :
    (slotRevision b).behind = b.code.filterMap (renumber? (numberIn? b)) := by
  simp [slotRevision, Revision.behind, List.filterMap_map]

theorem of_mem_slotRevision {i : Instr} (h : (i, o) ∈ slotRevision b) :
    i ∈ b.code ∧ o = renumber? (numberIn? b) i := by
  obtain ⟨j, hj, heq⟩ := List.mem_map.1 h
  cases heq
  exact ⟨hj, rfl⟩

theorem becomes_of_mem_slotRevision {i : Instr} (h : (i, o) ∈ slotRevision b) :
    o.elim (i.isSoft = true) i.Becomes := by
  rw [(of_mem_slotRevision h).2]
  unfold renumber?
  split
  · rename_i slot
    cases numberIn? b slot with
    | none => rfl
    | some slot' => exact .load
  · rename_i slot value
    cases numberIn? b slot with
    | none => rfl
    | some slot' => exact .store
  · exact .same i

end TypeNormalization

/-! ### Early binding -/

namespace MemberBinding

variable {facts : Facts} {code : List Instr} {args : List Temp} {position : Nat} {result : Temp}

/-- A table of argument arrays that is right about the code. -/
def Locates (code : List Instr) (table : Array (Option (Nat × List Temp))) : Prop :=
  ∀ (k position : Nat) (args : List Temp), table[k]?.join = some (position, args) →
    code[position]? = some (Instr.define ⟨k⟩ (.packArguments args))

theorem Locates.set {table : Array (Option (Nat × List Temp))}
    (h : Locates code table)
    (hi : code[position]? = some (.define result (.packArguments args))) :
    Locates code (table.setIfInBounds result.index (some (position, args))) := by
  intro k position' args' hk
  rw [Array.getElem?_setIfInBounds] at hk
  split at hk
  · rename_i heq
    split at hk
    · obtain ⟨rfl, rfl⟩ : position = position' ∧ args = args' := by simpa using hk
      exact heq ▸ hi
    · cases hk
  · exact h k position' args' hk

theorem packings_locates (b : Body) : Locates b.code (packings b) := by
  suffices h : ∀ (l : List (Instr × Nat)) (table : Array (Option (Nat × List Temp))),
      (∀ p ∈ l, b.code[p.2]? = some p.1) → Locates b.code table →
      Locates b.code (l.foldl _ table) from
    h b.code.zipIdx _ (fun p hp => by simpa using List.mk_mem_zipIdx_iff_getElem?.1 hp)
      fun k position args hk => by
        rw [Array.getElem?_replicate] at hk
        split at hk <;> cases hk
  intro l
  induction l with
  | nil => exact fun table _ h => h
  | cons p l ih =>
    intro table hl h
    refine ih _ (fun p hp => hl p (.tail _ hp)) ?_
    have hp := hl p (.head _)
    obtain ⟨i, position⟩ := p
    dsimp only at hp ⊢
    split
    · exact h.set hp
    · exact h

theorem size_takenApart (length : Nat) (bounds : List (Option Bound)) :
    (takenApart length bounds).size = length := by
  suffices h : ∀ flags : Array Bool, (bounds.foldl _ flags).size = flags.size by
    rw [takenApart, h, Array.size_replicate]
  intro flags
  induction bounds generalizing flags with
  | nil => rfl
  | cons bound bounds ih =>
    rw [List.foldl_cons, ih]
    split <;> simp

theorem takenApart_snoc (length : Nat) (bounds : List (Option Bound)) (bound : Option Bound) :
    takenApart length (bounds ++ [bound]) = match bound with
      | some { packing := some position, .. } => (takenApart length bounds).setIfInBounds position true
      | _ => takenApart length bounds := by
  rw [takenApart, List.foldl_append]
  rfl

/-- An argument array is taken apart where some bound call says so. -/
theorem getElem?_takenApart {length : Nat} (bounds : List (Option Bound)) (h : position < length) :
    (takenApart length bounds)[position]? = some true ↔
      ∃ bound, some bound ∈ bounds ∧ bound.packing = some position := by
  induction bounds using List.reverseRecOn with
  | nil => simp [takenApart, h]
  | append_singleton bounds bound ih =>
    rw [takenApart_snoc]
    split
    · rename_i call place
      rw [Array.getElem?_setIfInBounds, size_takenApart]
      by_cases heq : place = position
      · simp [heq, h]
      · simp [heq, ih]
    · rename_i hnone
      rw [ih]
      refine exists_congr fun found => and_congr_left fun hfound => ?_
      have hne : some found ≠ bound := fun hsame => hnone found.call position (by rw [← hsame, ← hfound])
      simp [hne]

/-- What the pass knows about a body. -/
def factsOf (b : Body) (registry : Registry) : Facts :=
  { registry, classes := receiverClasses b, uses := b.useCounts, packings := packings b }

/-- The registry has one instance method of this name and number of parameters, and the receiver is
known to be an instance of the class that declares it. The call is direct only if this is its very
class. -/
def Facts.Binds (facts : Facts) (result receiver : Temp) (name : String) (args : List Temp)
    (call : Instr) : Prop :=
  ∃ className declaring method, facts.classes.of? receiver = some className ∧
    facts.registry.uniqueInstanceMethod? name args.length = some (declaring, method) ∧
    facts.registry.isSubclassOf className declaring.name = true ∧
    call = .define result (.callTyped (declaring.name != className) declaring.name name
      method.callable receiver args)

theorem binds_of_bindCall? {receiver : Temp} {name : String} {call : Instr}
    (h : bindCall? facts result receiver name args = some call) :
    facts.Binds result receiver name args call := by
  unfold bindCall? at h
  simp only [Option.bind_eq_bind, Option.bind_eq_some_iff] at h
  obtain ⟨className, hclass, ⟨declaring, method⟩, hmethod, h⟩ := h
  split at h
  · rename_i hsub
    exact ⟨className, declaring, method, hclass, hmethod, hsub, (Option.some.inj h).symm⟩
  · cases h

/-- What becomes of an instruction. What is not bound stays. A call that is bound keeps its result,
its receiver, its name and its arguments, and the argument array that it had to itself goes. -/
inductive Edit (facts : Facts) (r : Revision) : Instr → Option Instr → Prop
  | keep {i : Instr} (h : bind? facts i = none) : Edit facts r i (some i)
  | fixed {result receiver : Temp} {name : String} {args : List Temp} {call : Instr}
    (hcall : facts.Binds result receiver name args call) :
    Edit facts r (.define result (.callMemberFixed receiver name args)) (some call)
  | packed {result receiver packed : Temp} {name : String} {args : List Temp} {call : Instr}
    (harray : (.define packed (.packArguments args), none) ∈ r)
    (hcall : facts.Binds result receiver name args call) :
    Edit facts r (.define result (.callMember receiver name packed)) (some call)
  | taken {result receiver packed : Temp} {name : String} {args : List Temp} {call : Instr}
    (hmem : (.define result (.callMember receiver name packed), some call) ∈ r)
    (hcall : facts.Binds result receiver name args call) (hone : facts.uses[packed.index]? = some 1) :
    Edit facts r (.define packed (.packArguments args)) none

/-- The instructions that are bound. -/
theorem bind?_eq_some (hfacts : Locates code facts.packings) {i : Instr} {bound : Bound}
    (h : bind? facts i = some bound) :
    (∃ result receiver name args, i = .define result (.callMemberFixed receiver name args) ∧
      bound.packing = none ∧ facts.Binds result receiver name args bound.call) ∨
    ∃ result receiver name packed position args, i = .define result (.callMember receiver name packed) ∧
      bound.packing = some position ∧ code[position]? = some (.define packed (.packArguments args)) ∧
      facts.uses[packed.index]? = some 1 ∧ facts.Binds result receiver name args bound.call := by
  unfold bind? at h
  split at h
  · obtain ⟨call, hcall, rfl⟩ := Option.map_eq_some_iff.1 h
    exact .inl ⟨_, _, _, _, rfl, rfl, binds_of_bindCall? hcall⟩
  · simp only [Option.bind_eq_bind, Option.bind_eq_some_iff] at h
    obtain ⟨⟨position, args⟩, hposition, h⟩ := h
    split at h
    · rename_i hone
      obtain ⟨call, hcall, h⟩ := Option.bind_eq_some_iff.1 h
      cases h
      exact .inr ⟨_, _, _, _, position, args, rfl, rfl, hfacts _ _ _ hposition, beq_iff_eq.1 hone,
        binds_of_bindCall? hcall⟩
    · cases h
  · cases h

/-- The call that is bound early, if there is one, in place of the instruction. -/
def replaced (i : Instr) : Option Bound → Instr
  | none => i
  | some bound => bound.call

/-- What becomes of an instruction: an argument array that was taken apart goes, and a call that is
bound early takes the place of a member call. -/
def revise (facts : Facts) (gone : Array Bool) (entry : Instr × Nat) : Instr × Option Instr :=
  (entry.1, if gone[entry.2]? == some true then none else some (replaced entry.1 (bind? facts entry.1)))

/-- The revision that binds calls. -/
def revision (b : Body) (registry : Registry) : Revision :=
  b.code.zipIdx.map (revise (factsOf b registry)
    (takenApart b.code.length (b.code.map (bind? (factsOf b registry)))))

variable {b : Body} {registry : Registry} {r : Revision} {i : Instr}

theorem before_revision (b : Body) (registry : Registry) : (revision b registry).before = b.code := by
  simp only [revision, Revision.before, List.map_map, Function.comp_def, revise]
  exact List.zipIdx_map_fst 0 b.code

theorem behind_revision (b : Body) (registry : Registry) :
    (revision b registry).behind = (b.bindMemberCalls registry).1.code := by
  unfold revision
  generalize hf : factsOf b registry = facts
  generalize hgone : takenApart b.code.length (b.code.map (bind? facts)) = gone
  have hbind : (b.bindMemberCalls registry).1.code
      = (b.code.zip (b.code.map (bind? facts))).zipIdx.filterMap fun entry =>
        if gone[entry.2]? == some true then none
        else some (replaced entry.1.1 entry.1.2) := by
    subst hgone hf
    rfl
  have hzip : b.code.zip (b.code.map (bind? facts)) = b.code.map fun i => (i, bind? facts i) := by
    simpa using List.zip_map' (f := id) (g := bind? facts) (l := b.code)
  rw [hbind, hzip, List.zipIdx_map, List.filterMap_map, Revision.behind, List.filterMap_map]
  rfl

theorem bindMemberCalls_fst (b : Body) (registry : Registry) :
    (b.bindMemberCalls registry).1 = { b with code := (revision b registry).behind } := by
  rw [behind_revision]
  rfl

/-- An instruction goes only if some bound call takes it apart, and is no call itself. A call that
is bound is replaced. -/
theorem of_mem_revision (h : (i, o) ∈ revision b registry) :
    (o = none ∧ bind? (factsOf b registry) i = none ∧ ∃ position, b.code[position]? = some i ∧
      ∃ j ∈ b.code, ∃ bound, bind? (factsOf b registry) j = some bound ∧
        bound.packing = some position) ∨
    o = some (replaced i (bind? (factsOf b registry) i)) := by
  obtain ⟨⟨j, position⟩, hj, heq⟩ := List.mem_map.1 h
  have hget := List.mk_mem_zipIdx_iff_getElem?.1 hj
  obtain ⟨rfl, rfl⟩ := Prod.mk.inj heq
  dsimp only
  split
  · rename_i hgone
    obtain ⟨bound, hbound, hpacking⟩ :=
      (getElem?_takenApart _ (List.getElem?_eq_some_iff.1 hget).1).1 (beq_iff_eq.1 hgone)
    obtain ⟨k, hk, hbind⟩ := List.mem_map.1 hbound
    refine .inl ⟨rfl, ?_, position, hget, k, hk, bound, hbind, hpacking⟩
    rcases bind?_eq_some (packings_locates b) hbind with ⟨_, _, _, _, -, hnone, -⟩ |
      ⟨_, _, _, _, position', _, -, hposition, hget', -⟩
    · simp [hpacking] at hnone
    · obtain rfl := Option.some.inj (hpacking.symm.trans hposition)
      obtain rfl := Option.some.inj (hget.symm.trans hget')
      rfl
  · exact .inr rfl

theorem mem_revision_none {j : Instr} {bound : Bound} (hget : b.code[position]? = some i)
    (hj : j ∈ b.code) (hbind : bind? (factsOf b registry) j = some bound)
    (hpacking : bound.packing = some position) : (i, none) ∈ revision b registry := by
  refine List.mem_map.2 ⟨(i, position), List.mk_mem_zipIdx_iff_getElem?.2 hget, ?_⟩
  have hgone := (getElem?_takenApart (b.code.map (bind? (factsOf b registry)))
    (List.getElem?_eq_some_iff.1 hget).1).2 ⟨bound, List.mem_map.2 ⟨j, hj, hbind⟩, hpacking⟩
  rw [revise, if_pos (beq_iff_eq.2 hgone)]

theorem mem_revision_bound {bound : Bound} (hi : i ∈ b.code)
    (hbind : bind? (factsOf b registry) i = some bound) : (i, some bound.call) ∈ revision b registry := by
  rw [← before_revision b registry] at hi
  obtain ⟨⟨i, o⟩, hmem, rfl⟩ := List.mem_map.1 hi
  rcases of_mem_revision hmem with ⟨-, hnone, -⟩ | rfl
  · simp [hnone] at hbind
  · rwa [hbind] at hmem

theorem edit_of_mem (h : (i, o) ∈ revision b registry) :
    Edit (factsOf b registry) (revision b registry) i o := by
  have hfacts : Locates b.code (factsOf b registry).packings := packings_locates b
  rcases of_mem_revision h with ⟨rfl, -, position, hget, j, hj, bound, hbind, hpacking⟩ | rfl
  · rcases bind?_eq_some hfacts hbind with ⟨_, _, _, _, -, hnone, -⟩ |
      ⟨_, _, _, _, _, _, rfl, hposition, hget', hone, hcall⟩
    · simp [hpacking] at hnone
    · obtain rfl := Option.some.inj (hpacking.symm.trans hposition)
      obtain rfl := Option.some.inj (hget.symm.trans hget')
      exact .taken (mem_revision_bound hj hbind) hcall hone
  · cases hbind : bind? (factsOf b registry) i with
    | none => exact .keep hbind
    | some bound =>
      have hi := before_revision b registry ▸ Revision.mem_before h
      rcases bind?_eq_some hfacts hbind with ⟨_, _, _, _, rfl, -, hcall⟩ |
        ⟨_, _, _, _, _, _, rfl, hposition, hget, -, hcall⟩
      · exact .fixed hcall
      · exact .packed (mem_revision_none hget hi hbind hposition) hcall

theorem becomes_of_mem {i' : Instr} (h : (i, some i') ∈ revision b registry) : i.Becomes i' := by
  cases edit_of_mem h with
  | keep => exact .same _
  | fixed hcall =>
    obtain ⟨_, _, _, -, -, -, rfl⟩ := hcall
    exact .bindFixed
  | packed _ hcall =>
    obtain ⟨_, _, _, -, -, -, rfl⟩ := hcall
    exact .bindPacked

/-- An argument array that goes has no reader but the call that takes it apart. -/
theorem reader_eq {packed : Temp} (hdropped : packed ∈ (revision b registry).dropped)
    (hi : (i, o) ∈ revision b registry) (hread : packed ∈ i.uses) :
    ∃ result receiver name call, i = .define result (.callMember receiver name packed) ∧
      o = some call ∧ call ≠ i ∧ receiver ≠ packed := by
  obtain ⟨packing, hnone, hresult⟩ := Revision.mem_dropped.1 hdropped
  cases edit_of_mem hnone with
  | @taken result receiver packed' name args call hentry hcall hone =>
  obtain rfl : packed' = packed := Option.some.inj hresult
  have hcount : readCount (revision b registry).before packed' = 1 := by
    rw [before_revision]
    exact Body.readCount_of_useCounts hone
  have hsame : (i, o) = (.define result (.callMember receiver name packed'), some call) := by
    by_contra hne
    have htwo := Revision.two_le_readCount_before hi hentry hne hread (.tail _ (.head _))
    omega
  obtain ⟨rfl, rfl⟩ := Prod.mk.inj hsame
  have hreceiver : receiver ≠ packed' := by
    rintro rfl
    have htwo := count_le_readCount (t := receiver) (Revision.mem_before hi)
    simp only [Instr.uses, Operation.uses, List.count_cons_self, List.count_nil] at htwo
    omega
  obtain ⟨_, _, _, -, -, -, rfl⟩ := hcall
  exact ⟨_, _, _, _, rfl, rfl, by simp, hreceiver⟩

theorem revision_sound (hnodup : (definedTemps b.code).Nodup) (huses : UsesDefined b.code) :
    (revision b registry).Sound where
  allowed := becomes_of_mem
  reads {front rest i i'} hr := by
    rw [← before_revision b registry] at huses hnodup
    have hreads := Revision.uses_subset huses hr
    cases edit_of_mem (hr ▸ List.mem_append_right front (.head rest)) with
    | keep => exact hreads
    | fixed hcall =>
      obtain ⟨_, _, _, -, -, -, rfl⟩ := hcall
      exact hreads
    | packed harray hcall =>
      obtain ⟨_, _, _, -, -, -, rfl⟩ := hcall
      have hpacking := Revision.mem_before harray
      rw [hr, Revision.before_append] at hpacking huses hnodup
      have hargs := huses.subset_of_result hnodup hpacking rfl (hreads (.tail _ (.head _)))
      intro t ht
      rcases List.mem_cons.1 ht with rfl | ht
      · exact hreads (.head _)
      · exact hargs ht
  keeps {i i'} hmem t ht hdropped := by
    cases edit_of_mem hmem with
    | keep =>
      obtain ⟨_, _, _, _, -, ho, hne, -⟩ := reader_eq hdropped hmem ht
      exact hne (Option.some.inj ho).symm
    | fixed hcall =>
      obtain ⟨_, _, _, -, -, -, rfl⟩ := hcall
      obtain ⟨_, _, _, _, hi, -⟩ := reader_eq hdropped hmem ht
      cases hi
    | packed harray hcall =>
      obtain ⟨_, _, _, -, -, -, rfl⟩ := hcall
      rcases List.mem_cons.1 ht with rfl | ht
      · obtain ⟨_, _, _, _, hi, -, -, hne⟩ := reader_eq hdropped hmem (.head _)
        cases hi
        exact hne rfl
      · obtain ⟨_, _, _, _, hi, -⟩ := reader_eq hdropped harray ht
        cases hi

end MemberBinding

/-! ### What the passes leave alone -/

namespace Body

variable {b b' : Body} {r : Revision}

theorem TrimsTo.of_revision (hbefore : r.before = b.code) (hbehind : r.behind = b'.code)
    (h : ∀ i o, (i, o) ∈ r → o.elim (i.isSoft = true) i.Becomes) (hrest : b' = { b with code := b'.code }) :
    b.TrimsTo b' := by
  have hcode := r.trims h
  rw [hbefore, hbehind] at hcode
  rw [hrest]
  exact ⟨hcode, rfl, rfl, rfl, rfl⟩

theorem reuseCoercions_trims (b : Body) : b.TrimsTo b.reuseCoercions.1 := by
  obtain ⟨r, hbefore, hbehind, hedits⟩ := CoercionReuse.exists_revision b
  refine .of_revision hbefore hbehind (fun i o hmem => ?_) rfl
  obtain ⟨front, hedit⟩ := hedits.of_mem hmem
  obtain ⟨i', rfl, hbecomes⟩ := hedit.exists_becomes
  exact hbecomes

open TypeNormalization

theorem unboxFieldStores_trims (b : Body) : b.TrimsTo (unboxFieldStores b).1 := by
  obtain ⟨stretches, h⟩ := exists_unboxing b
  refine .of_revision h.before h.behind (fun i o hmem => ?_) rfl
  cases o with
  | none =>
    obtain ⟨_, _, _, _, _, _, -, rfl⟩ := Unboxing.mem_none hmem
    rfl
  | some i' => exact Unboxing.allowed hmem

theorem copyArrays_trims (b : Body) : b.TrimsTo (copyArrays b).1 := by
  refine .of_revision (before_arrayRevision b) (behind_arrayRevision b) (fun i o hmem => ?_) rfl
  obtain rfl := eq_of_mem_arrayRevision hmem
  exact becomes_arrayCopy b i

theorem compactSlots_trims (b : Body) : b.TrimsTo (compactSlots b).1 := by
  unfold compactSlots
  dsimp only
  split
  · exact .refl b
  have hcode := (slotRevision b).trims fun _ _ => becomes_of_mem_slotRevision
  rw [before_slotRevision, behind_slotRevision] at hcode
  exact ⟨hcode, rfl, rfl, rfl, by cases b.epilogue <;> rfl⟩

theorem bindMemberCalls_trims (b : Body) (registry : Registry) :
    b.TrimsTo (b.bindMemberCalls registry).1 := by
  refine .of_revision (MemberBinding.before_revision b registry) (MemberBinding.behind_revision b registry)
    (fun i o hmem => ?_) rfl
  cases o with
  | none =>
    cases MemberBinding.edit_of_mem hmem
    rfl
  | some i' => exact MemberBinding.becomes_of_mem hmem

/-- The passes only trim a body. -/
theorem optimize_trims (b : Body) (registry : Registry) (options : Options) :
    b.TrimsTo (b.optimize registry options).1 := by
  have htypes : ∀ b : Body, b.TrimsTo b.normalizeTypes.1 := by
    intro b
    have hfirst : b.TrimsTo (typeConstructions b).1 := ⟨.refl _, rfl, rfl, rfl, rfl⟩
    exact hfirst.trans <| (unboxFieldStores_trims _).trans <|
      (copyArrays_trims _).trans (compactSlots_trims _)
  exact (passIf_trims reuseCoercions_trims b _).trans <| (passIf_trims htypes _ _).trans <|
    passIf_trims (fun b => b.bindMemberCalls_trims registry) _ _

end Body

end ScriptLowering
