import Mathlib.Data.List.Basic
import Mathlib.Order.Monotone.Basic
import ScriptLowering.Compile

/-!
# What the passes leave alone

The passes over a lowered body rewrite computations and drop some of them. None of them touches an
instruction that directs control, a label, or the load of an exception, and none of them adds an
instruction. `Trims` is this relation between the code in front of a pass and the code behind it.

What is at a position of the trimmed code was at a position of the original code, in the same order:
`Trims.exists_positions` gives the map of positions.
-/

namespace ScriptLowering

/-- The instruction neither directs control nor loads an exception. -/
def Instr.isSoft : Instr → Bool
  | .define _ .loadException => false
  | .define _ _ | .perform _ => true
  | _ => false

/-- The second code comes from the first one by changing and dropping soft instructions. -/
inductive Trims : List Instr → List Instr → Prop
  | nil : Trims [] []
  | keep (i : Instr) {code code' : List Instr} (h : Trims code code') :
    Trims (i :: code) (i :: code')
  | change {i i' : Instr} (hi : i.isSoft = true) (hi' : i'.isSoft = true) {code code' : List Instr}
    (h : Trims code code') : Trims (i :: code) (i' :: code')
  | drop {i : Instr} (hi : i.isSoft = true) {code code' : List Instr} (h : Trims code code') :
    Trims (i :: code) code'

namespace Trims

variable {code code' code'' : List Instr} {i i' : Instr}
variable {f : Nat → Nat}

theorem refl (code : List Instr) : Trims code code := by
  induction code with
  | nil => exact .nil
  | cons i code ih => exact .keep i ih

theorem trans (h : Trims code code') (h' : Trims code' code'') : Trims code code'' := by
  induction h generalizing code'' with
  | nil => exact h'
  | keep i h ih =>
    cases h' with
    | keep _ h' => exact .keep i (ih h')
    | change hi hi' h' => exact .change hi hi' (ih h')
    | drop hi h' => exact .drop hi (ih h')
  | change hi hi' h ih =>
    cases h' with
    | keep _ h' => exact .change hi hi' (ih h')
    | change _ hi'' h' => exact .change hi hi'' (ih h')
    | drop _ h' => exact .drop hi (ih h')
  | drop hi h ih => exact .drop hi (ih h')

/-- The instructions that are not soft stay as they are. -/
theorem filter_eq (h : Trims code code') :
    code'.filter (fun i => !i.isSoft) = code.filter (fun i => !i.isSoft) := by
  induction h with
  | nil => rfl
  | keep i _ ih => simp only [List.filter_cons, ih]
  | change hi hi' _ ih => simpa [hi, hi'] using ih
  | drop hi _ ih => simpa [hi] using ih

theorem mem_iff (h : Trims code code') (hi : i.isSoft = false) : i ∈ code' ↔ i ∈ code := by
  have hmem : ∀ c : List Instr, i ∈ c ↔ i ∈ c.filter (fun i => !i.isSoft) := fun c => by
    simp [List.mem_filter, hi]
  rw [hmem, h.filter_eq, ← hmem]

/-- The position of every instruction behind the pass. Positions keep their order, instructions that
are not soft keep their places, and there are no others. -/
structure Positions (code code' : List Instr) (f : Nat → Nat) : Prop where
  zero : f 0 = 0
  mono : Monotone f
  keeps : ∀ {n i}, code[n]? = some i → i.isSoft = false →
    code'[f n]? = some i ∧ f (n + 1) = f n + 1
  source : ∀ {m i'}, code'[m]? = some i' → ∃ n i, code[n]? = some i ∧ f n = m ∧ f (n + 1) = m + 1 ∧
    (i' = i ∨ i.isSoft = true ∧ i'.isSoft = true)

/-- Positions behind one more instruction that takes the given number of places. -/
def behind (places : Nat) (f : Nat → Nat) : Nat → Nat
  | 0 => 0
  | n + 1 => f n + places

theorem monotone_behind (hf : Monotone f) (places : Nat) :
    Monotone (behind places f) :=
  monotone_nat_of_le_succ fun n => by
    cases n with
    | zero => exact Nat.zero_le _
    | succ n => exact Nat.add_le_add_right (hf n.le_succ) _

theorem Positions.cons (h : Positions code code' f)
    (hi : i' = i ∨ i.isSoft = true ∧ i'.isSoft = true) :
    Positions (i :: code) (i' :: code') (behind 1 f) where
  zero := rfl
  mono := monotone_behind h.mono 1
  keeps {n j} hj hsoft := by
    cases n with
    | zero =>
      obtain rfl : i = j := by simpa using hj
      rcases hi with rfl | ⟨hi, -⟩
      · exact ⟨rfl, by simp [behind, h.zero]⟩
      · simp [hi] at hsoft
    | succ n =>
      obtain ⟨hget, hnext⟩ := h.keeps (by simpa using hj) hsoft
      exact ⟨by simpa [behind] using hget, by simp [behind, hnext]⟩
  source {m j} hj := by
    cases m with
    | zero =>
      obtain rfl : i' = j := by simpa using hj
      exact ⟨0, i, rfl, rfl, by simp [behind, h.zero], hi⟩
    | succ m =>
      obtain ⟨n, i₀, hget, hn, hnext, hsame⟩ := h.source (by simpa using hj)
      exact ⟨n + 1, i₀, by simpa using hget, by simp [behind, hn], by simp [behind, hnext], hsame⟩

theorem Positions.drop (h : Positions code code' f) (hi : i.isSoft) :
    Positions (i :: code) code' (behind 0 f) where
  zero := rfl
  mono := monotone_behind h.mono 0
  keeps {n j} hj hsoft := by
    cases n with
    | zero =>
      obtain rfl : i = j := by simpa using hj
      simp [hi] at hsoft
    | succ n => exact h.keeps (by simpa using hj) hsoft
  source {m j} hj := by
    obtain ⟨n, i₀, hget, hn, hnext, hsame⟩ := h.source hj
    exact ⟨n + 1, i₀, by simpa using hget, hn, hnext, hsame⟩

theorem exists_positions (h : Trims code code') : ∃ f, Positions code code' f := by
  induction h with
  | nil => exact ⟨id, rfl, monotone_id, by simp, by simp⟩
  | keep i _ ih =>
    obtain ⟨f, hf⟩ := ih
    exact ⟨_, hf.cons (.inl rfl)⟩
  | change hi hi' _ ih =>
    obtain ⟨f, hf⟩ := ih
    exact ⟨_, hf.cons (.inr ⟨hi, hi'⟩)⟩
  | drop hi _ ih =>
    obtain ⟨f, hf⟩ := ih
    exact ⟨_, hf.drop hi⟩

end Trims

/-! ### Bodies -/

/-- The second body comes from the first one by trimming its code. The tables of labels stay. -/
structure Body.TrimsTo (b b' : Body) : Prop where
  code : Trims b.code b'.code
  labelCount : b'.labelCount = b.labelCount
  regions : b'.regions = b.regions
  resumePoints : b'.resumePoints = b.resumePoints
  epilogue : b'.epilogue.map ReturnEpilogue.label = b.epilogue.map ReturnEpilogue.label

namespace Body

variable {b b' b'' : Body}

theorem TrimsTo.refl (b : Body) : b.TrimsTo b :=
  ⟨.refl _, rfl, rfl, rfl, rfl⟩

theorem TrimsTo.trans (h : b.TrimsTo b') (h' : b'.TrimsTo b'') : b.TrimsTo b'' where
  code := h.code.trans h'.code
  labelCount := h'.labelCount.trans h.labelCount
  regions := h'.regions.trans h.regions
  resumePoints := h'.resumePoints.trans h.resumePoints
  epilogue := h'.epilogue.trans h.epilogue

theorem passIf_trims {pass : Body → Body × Nat} (h : ∀ b : Body, b.TrimsTo (pass b).1) (b : Body)
    (isEnabled : Bool) : b.TrimsTo (b.passIf isEnabled pass).1 := by
  unfold passIf
  split
  · exact h b
  · exact .refl b

end Body

end ScriptLowering
