import Mathlib.Logic.Function.Basic
import ScriptLowering.Proofs.WellFormed
import ScriptLowering.Proofs.WriteOnce

/-!
# The reuse of coercions keeps the meaning

Where a coercion of an unboxed temp is repeated in a basic block, the second one becomes a copy of
the first result. Nothing changes for the running body: along every path the temps, the slots and
the rest of the world hold the same values at every step.

What the instructions do is left open. A `Meaning` says what each of them may make of the memory.
Inside a block an instruction writes no temp but the one that it defines, and a coercion of an
unboxed temp is a function of its kind and of the value; that is all the pass relies on. Paths are
left open, too: control goes from an instruction to the next one, to any label or back to the entry,
so that jumps, handlers and re-entries after a suspension are all among the paths.

The argument is an invariant of the sweep over the code. At each position inside a block the results
that are available there are what their sources, which have not been written since, are coerced to.

## Main definitions

* `Memory`, `Meaning`, `Meaning.Coerces`: what instructions do;
* `Meaning.Execution`: executions along arbitrary paths;
* `ReadsFollow`: temps are defined once and read behind their definitions.

## Main results

* `CoercionReuse.Sweep.Current.step`: the available results stay up to date;
* `Body.reuseCoercions_execution`: the executions are the same;
* `Body.reuseCoercions_keepsMeaning`: all that holds of the pass.
-/

namespace ScriptLowering

/-! ### Executions -/

/-- What a running body works on. -/
structure Memory (V W : Type) where
  temps : Temp → V
  slots : Slot → V
  /-- Everything else: arguments, the fields of capture objects, the heap. -/
  world : W

/-- Sets a temp. -/
def Memory.set {V W : Type} (σ : Memory V W) (t : Temp) (v : V) : Memory V W :=
  { σ with temps := Function.update σ.temps t v }

namespace Memory

variable {V W : Type} (σ : Memory V W) (t : Temp) (v : V)

@[simp] theorem temps_set_self : (σ.set t v).temps t = v := by
  simp [set]

variable {t} in
theorem temps_set_of_ne {u : Temp} (h : u ≠ t) : (σ.set t v).temps u = σ.temps u := by
  simp [set, h]

end Memory

/-- What each instruction may make of the memory. Only where a block ends can an instruction touch
other temps than its own: none of them survives a suspension. -/
structure Meaning (V W : Type) where
  exec : Instr → Memory V W → Memory V W → Prop
  frame : ∀ {i : Instr} {σ τ : Memory V W} {t : Temp}, exec i σ τ → i.endsBlock = false →
    i.result? ≠ some t → τ.temps t = σ.temps t

namespace Meaning

variable {V W : Type}

/-- In the body, a coercion of an unboxed temp is a function of its kind and of the value, and
copies copy. -/
structure Coerces (M : Meaning V W) (b : Body) (convert : Coercion → V → V) : Prop where
  coerce : ∀ {kind : Coercion} {source result : Temp} {σ τ : Memory V W},
    (b.storageOf source).isUnboxed = true →
    (M.exec (.define result (.coerce kind source)) σ τ ↔
      τ = σ.set result (convert kind (σ.temps source)))
  copy : ∀ {source result : Temp} {σ τ : Memory V W},
    M.exec (.define result (.copy source)) σ τ ↔ τ = σ.set result (σ.temps source)

/-- Where control can go to from anywhere in the code: the entry and the labels. -/
def Entry (code : List Instr) (n : Nat) : Prop :=
  n = 0 ∨ ∃ l, code[n]? = some (.label l)

/-- An execution from the entry of the code, the last step first: at which positions control is, and
what the memory holds there. -/
inductive Execution (M : Meaning V W) (code : List Instr) : List (Nat × Memory V W) → Prop
  | start (σ : Memory V W) : Execution M code [(0, σ)]
  | next {n : Nat} {σ τ : Memory V W} {past : List (Nat × Memory V W)} {i : Instr}
      (h : Execution M code ((n, σ) :: past)) (hi : code[n]? = some i) (hexec : M.exec i σ τ) :
      Execution M code ((n + 1, τ) :: (n, σ) :: past)
  | goto {n m : Nat} {σ τ : Memory V W} {past : List (Nat × Memory V W)} {i : Instr}
      (h : Execution M code ((n, σ) :: past)) (hi : code[n]? = some i) (hexec : M.exec i σ τ)
      (hm : Entry code m) : Execution M code ((m, τ) :: (n, σ) :: past)

end Meaning

/-- Every temp is defined at most once, and read only behind its definition. -/
structure ReadsFollow (code : List Instr) : Prop where
  once : ∀ {n m : Nat} {i j : Instr} {t : Temp}, code[n]? = some i → code[m]? = some j →
    i.result? = some t → j.result? = some t → n = m
  behind : ∀ {n m : Nat} {i j : Instr} {t : Temp}, code[n]? = some i → code[m]? = some j →
    i.result? = some t → t ∈ j.uses → n < m

theorem ReadsFollow.of_usesDefined {code : List Instr} (hnodup : (definedTemps code).Nodup)
    (huses : UsesDefined code) : ReadsFollow code := by
  have honce : ∀ {n m : Nat} {i j : Instr} {t : Temp}, code[n]? = some i → code[m]? = some j →
      i.result? = some t → j.result? = some t → n = m := fun {_ _ _ _ t} =>
    index_unique_of_count (List.nodup_iff_count_le_one.1 hnodup t)
  refine ⟨honce, fun {n m i j t} hi hj hti htj => ?_⟩
  obtain ⟨k, hk, j', hj', htj'⟩ := huses.exists_definition hj htj
  exact (honce hi hj' hti htj').trans_lt hk

/-! ### The sweep -/

namespace CoercionReuse

variable {b : Body} {n : Nat} {i : Instr}

namespace Sweep

variable (b) {s s' : Sweep}

/-- What is available does not depend on the code so far. -/
theorem available_step_congr (h : s'.available = s.available) :
    (s'.step b i).available = (s.step b i).available := by
  cases i with
  | define result op =>
    cases op with
    | coerce kind source =>
      simp only [step, coercion, h]
      split
      · split
        · rfl
        · split <;> exact h
      · exact h
    | _ => exact h
  | perform effect => exact h
  | _ => rfl

theorem output_congr (h : s'.available = s.available) : s'.output b i = s.output b i := by
  unfold output
  rw [h]

/-- With the same results available, what the sweep has put out stays. -/
theorem output_output (h : s'.available = s.available) : s'.output b (s.output b i) = s.output b i := by
  rcases s.output_cases b i with heq | ⟨_, _, _, _, -, -, -, -, heq⟩
  · rw [heq, output_congr b h, heq]
  · rw [heq]
    rfl

/-- Behind what the sweep puts out, the same results are available. -/
theorem available_step_output (h : s'.available = s.available) :
    (s'.step b (s.output b i)).available = (s.step b i).available := by
  rcases s.output_cases b i with heq | ⟨result, kind, source, previous, rfl, -, -, -, heq⟩
  · rw [heq]
    exact available_step_congr b h
  · rcases s.step_available b (.define result (.coerce kind source)) with
      ⟨-, hend⟩ | ⟨-, hsame | ⟨_, _, _, -, -, hstays, -⟩⟩
    · cases hend
    · rw [heq, hsame]
      exact h
    · cases heq.symm.trans hstays

end Sweep

theorem length_reuseCoercions (b : Body) : b.reuseCoercions.1.code.length = b.code.length := by
  have hsize := code_sweepAt b le_rfl
  rw [sweepAt_length] at hsize
  exact Array.length_toList.trans hsize

/-- The count is that of the instructions which have changed. -/
theorem count_reuseCoercions (b : Body) : b.reuseCoercions.2 =
    (b.code.zip b.reuseCoercions.1.code).countP fun p => p.1 ≠ p.2 := by
  have hcount : ∀ n ≤ b.code.length, (sweepAt b n).count =
      ((b.code.take n).zip (sweepAt b n).code.toList).countP fun p => p.1 ≠ p.2 := by
    intro n hn
    induction n with
    | zero => rfl
    | succ n ih =>
      have hi := List.getElem?_eq_getElem hn
      obtain ⟨hcode, hcount⟩ := (sweepAt b n).step_output b b.code[n]
      have hsize := code_sweepAt b (Nat.le_of_succ_le hn)
      have hlength : (b.code.take n).length = (sweepAt b n).code.toList.length := by
        rw [List.length_take_of_le (Nat.le_of_succ_le hn), Array.length_toList, hsize]
      rw [sweepAt_succ hi, hcount, hcode, List.take_add_one, hi, Option.toList_some, Array.toList_push,
        List.zip_append hlength, List.countP_append, ih (Nat.le_of_succ_le hn)]
      by_cases hsame : (sweepAt b n).output b b.code[n] = b.code[n]
      · simp [hsame]
      · simp [hsame, Ne.symm hsame]
  have h := hcount b.code.length le_rfl
  rw [List.take_length, sweepAt_length] at h
  exact h

/-- A second sweep finds the same results available at each position, and nothing to change. -/
theorem sweepAt_reuseCoercions (b : Body) (hn : n ≤ b.code.length) :
    (sweepAt b.reuseCoercions.1 n).available = (sweepAt b n).available ∧
      (sweepAt b.reuseCoercions.1 n).count = 0 := by
  induction n with
  | zero => exact ⟨rfl, rfl⟩
  | succ n ih =>
    obtain ⟨havailable, hcount⟩ := ih (Nat.le_of_succ_le hn)
    have hi := List.getElem?_eq_getElem hn
    have hi' := (getElem?_reuseCoercions b n).trans (congrArg _ hi)
    have hstays : (sweepAt b.reuseCoercions.1 n).output b.reuseCoercions.1
        ((sweepAt b n).output b b.code[n]) = (sweepAt b n).output b b.code[n] :=
      Sweep.output_output b.reuseCoercions.1 havailable
    rw [sweepAt_succ hi', sweepAt_succ hi]
    refine ⟨Sweep.available_step_output b havailable, ?_⟩
    rw [(Sweep.step_output _ _ _).2, hcount, if_pos hstays]

/-- The pass leaves nothing to do. -/
theorem reuseCoercions_reuseCoercions (b : Body) :
    b.reuseCoercions.1.reuseCoercions = (b.reuseCoercions.1, 0) := by
  have hcode : b.reuseCoercions.1.reuseCoercions.1.code = b.reuseCoercions.1.code := by
    refine List.ext_getElem? fun n => ?_
    rw [getElem?_reuseCoercions b.reuseCoercions.1, getElem?_reuseCoercions b]
    cases hi : b.code[n]? with
    | none => rfl
    | some i =>
      have hn := (List.getElem?_eq_some_iff.1 hi).1
      exact congrArg some (Sweep.output_output b.reuseCoercions.1 (sweepAt_reuseCoercions b hn.le).1)
  have hcount : b.reuseCoercions.1.reuseCoercions.2 = 0 := by
    have h := (sweepAt_reuseCoercions b le_rfl).2
    rwa [← length_reuseCoercions, sweepAt_length] at h
  have hbody : b.reuseCoercions.1.reuseCoercions.1 = b.reuseCoercions.1 :=
    calc b.reuseCoercions.1.reuseCoercions.1
        = { b.reuseCoercions.1 with code := b.reuseCoercions.1.reuseCoercions.1.code } := rfl
      _ = b.reuseCoercions.1 := by rw [hcode]
  exact Prod.ext hbody hcount

/-- Labels stay in their places. -/
theorem entry_reuseCoercions :
    Meaning.Entry b.reuseCoercions.1.code n ↔ Meaning.Entry b.code n := by
  refine or_congr_right (exists_congr fun l => ?_)
  rw [getElem?_reuseCoercions]
  constructor
  · intro h
    obtain ⟨i, hi, hout⟩ := Option.map_eq_some_iff.1 h
    rcases (sweepAt b n).output_cases b i with heq | ⟨_, _, _, _, -, -, -, -, heq⟩
    · rw [hi, ← hout, heq]
    · cases hout.symm.trans heq
  · intro h
    rw [h]
    rfl

/-! ### Available results -/

variable {V W : Type} {M : Meaning V W} {convert : Coercion → V → V} {σ τ : Memory V W}

/-- Every available result is what its source is coerced to. -/
def Sweep.Current (s : Sweep) (convert : Coercion → V → V) (σ : Memory V W) : Prop :=
  ∀ kind source result, ((kind, source), result) ∈ s.available →
    σ.temps result = convert kind (σ.temps source)

/-- An instruction inside a block keeps the available results up to date: it writes neither one of
them nor a temp that one of them comes from. -/
theorem Sweep.Current.step (hcode : ReadsFollow b.code) (hM : M.Coerces b convert)
    (h : (sweepAt b n).Current convert σ) (hi : b.code[n]? = some i) (hend : i.endsBlock = false)
    (hexec : M.exec i σ τ) : (sweepAt b (n + 1)).Current convert τ := by
  have hn : n < b.code.length := (List.getElem?_eq_some_iff.1 hi).1
  -- what was available before
  have hkept : ∀ kind source result, ((kind, source), result) ∈ (sweepAt b n).available →
      τ.temps result = convert kind (τ.temps source) := by
    intro kind source result hmem
    obtain ⟨m, hm, hcoercion⟩ := exists_of_available hn.le hmem
    have hresult : i.result? ≠ some result := fun heq =>
      Nat.ne_of_lt hm (hcode.once hcoercion hi rfl heq)
    have hsource : i.result? ≠ some source := fun heq =>
      Nat.lt_asymm hm (hcode.behind hi hcoercion heq (.head _))
    rw [M.frame hexec hend hresult, M.frame hexec hend hsource]
    exact h kind source result hmem
  rw [sweepAt_succ hi]
  intro kind source result hmem
  rcases (sweepAt b n).step_available b i with
    ⟨hnil, -⟩ | ⟨-, hsame | ⟨result', kind', source', rfl, hbare, -, hcons⟩⟩
  · rw [hnil] at hmem
    cases hmem
  · exact hkept kind source result (hsame ▸ hmem)
  · rw [hcons] at hmem
    rcases List.mem_cons.1 hmem with hnew | hold
    · cases hnew
      obtain rfl := (hM.coerce hbare).1 hexec
      have hne : source ≠ result := by
        rintro rfl
        exact Nat.lt_irrefl n (hcode.behind hi hi rfl (.head _))
      rw [Memory.temps_set_self, Memory.temps_set_of_ne σ _ hne]
    · exact hkept kind source result hold

/-- What takes the place of an instruction does the same. -/
theorem exec_output (hM : M.Coerces b convert)
    (h : i.endsBlock = false → (sweepAt b n).Current convert σ) :
    M.exec ((sweepAt b n).output b i) σ τ ↔ M.exec i σ τ := by
  rcases (sweepAt b n).output_cases b i with
    heq | ⟨result, kind, source, previous, rfl, hbare, hmem, -, heq⟩
  · rw [heq]
  · rw [heq, hM.copy, hM.coerce hbare, h rfl kind source previous hmem]

/-- Inside a block the available results are up to date at each position of an execution. -/
theorem current_of_execution (hcode : ReadsFollow b.code) (hM : M.Coerces b convert)
    {past : List (Nat × Memory V W)} (h : M.Execution b.code ((n, σ) :: past))
    (hi : b.code[n]? = some i) (hend : i.endsBlock = false) : (sweepAt b n).Current convert σ := by
  generalize htrace : (n, σ) :: past = trace at h
  induction h generalizing n σ past i with
  | start =>
    cases htrace
    exact fun _ _ _ hmem => by cases hmem
  | @next m ρ τ past' j h hj hexec ih =>
    cases htrace
    cases hj' : j.endsBlock with
    | false => exact (ih hj hj' rfl).step hcode hM hj hj' hexec
    | true =>
      rw [sweepAt_succ hj]
      rcases (sweepAt b m).step_available b j with ⟨hnil, -⟩ | ⟨hfalse, -⟩
      · rw [Sweep.Current, hnil]
        exact fun _ _ _ hmem => by cases hmem
      · cases hj'.symm.trans hfalse
  | goto h hj hexec hm =>
    cases htrace
    rcases hm with rfl | ⟨l, hl⟩
    · exact fun _ _ _ hmem => by cases hmem
    · cases hi.symm.trans hl
      cases hend

end CoercionReuse

open CoercionReuse

namespace Body

variable {V W : Type} {b : Body} {M : Meaning V W} {convert : Coercion → V → V}

/-- The executions behind the pass are those in front of it. -/
theorem reuseCoercions_execution (hcode : ReadsFollow b.code) (hM : M.Coerces b convert)
    (trace : List (Nat × Memory V W)) :
    M.Execution b.reuseCoercions.1.code trace ↔ M.Execution b.code trace := by
  have hexec : ∀ {n : Nat} {σ τ : Memory V W} {past : List (Nat × Memory V W)} {i : Instr},
      M.Execution b.code ((n, σ) :: past) → b.code[n]? = some i →
      (M.exec ((sweepAt b n).output b i) σ τ ↔ M.exec i σ τ) := fun h hi =>
    exec_output hM fun hend => current_of_execution hcode hM h hi hend
  constructor
  · intro h
    induction h with
    | start σ => exact .start σ
    | next _ hi' hrun ih =>
      obtain ⟨i, hi, rfl⟩ := Option.map_eq_some_iff.1 ((getElem?_reuseCoercions b _).symm.trans hi')
      exact .next ih hi ((hexec ih hi).1 hrun)
    | goto _ hi' hrun hm ih =>
      obtain ⟨i, hi, rfl⟩ := Option.map_eq_some_iff.1 ((getElem?_reuseCoercions b _).symm.trans hi')
      exact .goto ih hi ((hexec ih hi).1 hrun) (entry_reuseCoercions.1 hm)
  · intro h
    induction h with
    | start σ => exact .start σ
    | next h hi hrun ih =>
      have hi' := (getElem?_reuseCoercions b _).trans (congrArg _ hi)
      exact .next ih hi' ((hexec h hi).2 hrun)
    | goto h hi hrun hm ih =>
      have hi' := (getElem?_reuseCoercions b _).trans (congrArg _ hi)
      exact .goto ih hi' ((hexec h hi).2 hrun) (entry_reuseCoercions.2 hm)

/-- Along every path the body works on the same values in front of the pass and behind it. Nothing
but the code changes, instruction by instruction; the count says how many of them do, and a second
run changes none. -/
theorem reuseCoercions_keepsMeaning (b : Body) (M : Meaning V W) (convert : Coercion → V → V)
    (hcode : ReadsFollow b.code) (hM : M.Coerces b convert) :
    (∀ trace : List (Nat × Memory V W),
        M.Execution b.reuseCoercions.1.code trace ↔ M.Execution b.code trace) ∧
      b.reuseCoercions.1 = { b with code := b.reuseCoercions.1.code } ∧
      b.reuseCoercions.1.code.length = b.code.length ∧
      b.reuseCoercions.2 = ((b.code.zip b.reuseCoercions.1.code).countP fun p => p.1 ≠ p.2) ∧
      b.reuseCoercions.1.reuseCoercions = (b.reuseCoercions.1, 0) :=
  ⟨reuseCoercions_execution hcode hM, rfl, length_reuseCoercions b, count_reuseCoercions b,
    reuseCoercions_reuseCoercions b⟩

end Body

/-- A meaning in which a value is the list of the coercions that it went through, and in which all
but coercions and copies may give and write anything. -/
def coercionHistory : Meaning (List Coercion) Unit where
  exec i σ τ := match i with
    | .define result (.coerce kind source) => τ = σ.set result (kind :: σ.temps source)
    | .define result (.copy source) => τ = σ.set result (σ.temps source)
    | .define result _ => ∃ v slots, τ = { σ.set result v with slots }
    | .perform _ => τ.temps = σ.temps
    | _ => True
  frame {i σ τ t} hexec hend ht := by
    have hset {result : Temp} (hne : some result ≠ some t) (v : List Coercion) :
        (σ.set result v).temps t = σ.temps t :=
      σ.temps_set_of_ne v fun heq => hne (congrArg some heq.symm)
    cases i with
    | define result op =>
      cases op with
      | coerce kind source => exact hexec ▸ hset ht _
      | copy source => exact hexec ▸ hset ht _
      | _ =>
        obtain ⟨v, slots, rfl⟩ := hexec
        exact hset ht v
    | perform effect => exact congrFun hexec t
    | _ => cases hend

theorem reuseCoercions_keepsMeaning_improvable :
    improvable.reuseCoercions.2 = 1 ∧ ∀ trace : List (Nat × Memory (List Coercion) Unit),
      coercionHistory.Execution improvable.reuseCoercions.1.code trace ↔
        coercionHistory.Execution improvable.code trace :=
  ⟨by decide +kernel,
    (Body.reuseCoercions_keepsMeaning improvable coercionHistory List.cons
      (.of_usesDefined (by decide) (by decide)) ⟨fun _ => .rfl, .rfl⟩).1⟩

end ScriptLowering
