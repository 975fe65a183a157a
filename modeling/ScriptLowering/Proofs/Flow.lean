import Mathlib.Data.Set.Insert
import ScriptLowering.Proofs.Outline

/-!
# Availability

A temp or slot is *available* at a point of the code if it was written on every way that leads
there. Rather than over ways, the theory is stated over certificates: a `Typing` assigns to every
label the cells that are available there, and `Flow.Ok` checks one instruction after the other
against it. At a jump everything that the target promises must be available; at a label exactly what
it promises is; behind an instruction that control does not fall through, anything is.

A resumption loses everything but the cells of a fixed set `U` and the temp that it defines itself.
Different sets `U` give different theorems from one certificate.

Besides, `Flow.Ok` asks that a *floor* of cells is available at every point. An exception can arise
at any point of a protected range, so the floor of the range is what its handler can rely on.
-/

namespace ScriptLowering

/-- A temp or a slot. -/
inductive Cell where
  | temp (t : Temp)
  | slot (s : Slot)
deriving DecidableEq

/-- The cells that an operation reads. -/
def Operation.reads : Operation → List Cell
  | .loadSlot s => [.slot s]
  | op => op.uses.map .temp

namespace Instr

/-- The cells that the instruction reads. -/
def reads : Instr → List Cell
  | .define _ op => op.reads
  | i => i.uses.map .temp

/-- The cells that the instruction writes. What a suspension defines is written on re-entry. -/
def writes : Instr → List Cell
  | .define result _ => [.temp result]
  | .perform (.storeSlot s _) => [.slot s]
  | _ => []

/-- The labels at which control can be directly behind the instruction. -/
def successors : Instr → List Label
  | .label l | .branch l | .branchIf _ _ l | .leave l | .dispatch _ l => [l]
  | _ => []

/-- The labels that the instruction names. -/
def labels : Instr → List Label
  | .suspend _ _ _ l _ _ => [l]
  | i => i.successors

/-- Control can go on to the next instruction. -/
def fallsThrough : Instr → Bool
  | .define _ _ | .perform _ | .label _ | .branchIf _ _ _ => true
  | _ => false

@[simp] theorem reads_unfused (i : Instr) : i.unfused.reads = i.reads := by
  unfold unfused; split <;> rfl

@[simp] theorem writes_unfused (i : Instr) : i.unfused.writes = i.writes := by
  unfold unfused; split <;> rfl

end Instr

/-- What is available at each label. -/
abbrev Typing := Label → Set Cell

namespace Flow

variable {U K K' A B : Set Cell} {Λ Λ' : Typing} {i : Instr} {c d : List Instr}

/-- What is available behind an instruction. -/
def after (Λ : Typing) (A : Set Cell) (i : Instr) : Set Cell :=
  match i with
  | .label l => Λ l
  | .define _ _ | .perform _ | .branchIf _ _ _ => A ∪ {c | c ∈ i.writes}
  | _ => Set.univ

/-- The instruction reads only what is available, and so do the labels where control can be next. A
suspension leaves only the cells of `U` to its resume label, and the temp that it defines. -/
structure Step (U : Set Cell) (Λ : Typing) (A : Set Cell) (i : Instr) : Prop where
  reads : ∀ c ∈ i.reads, c ∈ A
  enters : ∀ l ∈ i.successors, Λ l ⊆ A
  resumes : ∀ kind value state l result reject,
    i = .suspend kind value state l result reject → Λ l ⊆ insert (.temp result) U

/-- The code passes the check from the available cells `A` on, and never has less than the floor
`K`. -/
def Ok (U : Set Cell) (Λ : Typing) (K : Set Cell) : Set Cell → List Instr → Prop
  | A, [] => K ⊆ A
  | A, i :: c => K ⊆ A ∧ Step U Λ A i ∧ Ok U Λ K (after Λ A i) c

/-- What is available behind the code. -/
def out (Λ : Typing) (A : Set Cell) (c : List Instr) : Set Cell :=
  c.foldl (after Λ) A

@[simp] theorem out_nil : out Λ A [] = A := rfl

@[simp] theorem out_cons : out Λ A (i :: c) = out Λ (after Λ A i) c := rfl

@[simp] theorem out_append : out Λ A (c ++ d) = out Λ (out Λ A c) d :=
  List.foldl_append

theorem Ok.floor_le (h : Ok U Λ K A c) : K ⊆ A := by
  cases c with
  | nil => exact h
  | cons i c => exact h.1

theorem Ok.floor_le_out (h : Ok U Λ K A c) : K ⊆ out Λ A c := by
  induction c generalizing A with
  | nil => exact h
  | cons i c ih => exact ih h.2.2

/-- Certificates are checked piece by piece. -/
theorem Ok.append (hc : Ok U Λ K A c) (hd : Ok U Λ K (out Λ A c) d) : Ok U Λ K A (c ++ d) := by
  induction c generalizing A with
  | nil => exact hd
  | cons i c ih => exact ⟨hc.1, hc.2.1, ih hc.2.2 hd⟩

theorem Ok.left (h : Ok U Λ K A (c ++ d)) : Ok U Λ K A c := by
  induction c generalizing A with
  | nil => exact h.floor_le
  | cons i c ih => exact ⟨h.1, h.2.1, ih h.2.2⟩

/-! ### More cells, other typings -/

theorem after_mono (h : A ⊆ B) : after Λ A i ⊆ after Λ B i := by
  unfold after
  split
  · exact subset_rfl
  all_goals first | exact Set.union_subset_union_left _ h | exact subset_rfl

theorem Step.mono (hs : Step U Λ A i) (h : A ⊆ B) : Step U Λ B i where
  reads c hc := h (hs.reads c hc)
  enters l hl := (hs.enters l hl).trans h
  resumes := hs.resumes

/-- A certificate stays good if more is available and a lower floor is asked for. -/
theorem Ok.mono (hok : Ok U Λ K A c) (hA : A ⊆ B) (hK : K' ⊆ K) : Ok U Λ K' B c := by
  induction c generalizing A B with
  | nil => exact hK.trans (hok.trans hA)
  | cons i c ih =>
    exact ⟨hK.trans (hok.1.trans hA), hok.2.1.mono hA, ih hok.2.2 (after_mono hA)⟩

theorem after_congr (h : ∀ l ∈ i.labels, Λ l = Λ' l) : after Λ A i = after Λ' A i := by
  unfold after
  split <;> simp_all [Instr.labels, Instr.successors]

theorem Step.congr (hs : Step U Λ A i) (h : ∀ l ∈ i.labels, Λ l = Λ' l) : Step U Λ' A i where
  reads := hs.reads
  enters l hl := by
    have hl' : l ∈ i.labels := by cases i <;> simp_all [Instr.labels, Instr.successors]
    exact h l hl' ▸ hs.enters l hl
  resumes kind value state l result reject hi := by
    have hl : l ∈ i.labels := by simp [hi, Instr.labels]
    exact h l hl ▸ hs.resumes kind value state l result reject hi

theorem out_congr (h : ∀ i ∈ c, ∀ l ∈ i.labels, Λ l = Λ' l) : out Λ A c = out Λ' A c := by
  induction c generalizing A with
  | nil => rfl
  | cons i c ih =>
    rw [out_cons, out_cons, after_congr (h i (List.mem_cons_self ..))]
    exact ih fun j hj => h j (.tail _ hj)

/-- A certificate does not depend on the labels that the code does not name. -/
theorem Ok.congr (hok : Ok U Λ K A c) (h : ∀ i ∈ c, ∀ l ∈ i.labels, Λ l = Λ' l) :
    Ok U Λ' K A c := by
  induction c generalizing A with
  | nil => exact hok
  | cons i c ih =>
    have hi := h i (List.mem_cons_self ..)
    refine ⟨hok.1, hok.2.1.congr hi, ?_⟩
    rw [← after_congr hi]
    exact ih hok.2.2 fun j hj => h j (.tail _ hj)

end Flow

end ScriptLowering
