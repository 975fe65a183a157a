import ScriptLowering.Proofs.CoercionReuse

/-!
# Executions of revised code

A revision may drop instructions and replace others, and the code behind it is meant to do the same
as the code in front of it. What the instructions do is left open: `Answers` says how each of them
may answer to the values that it reads. It acts on the outside, writes temps, and control then falls
through, goes to a label or ends with an outcome. Only slots are fixed, since revisions number them
anew: loads and stores access them, and nothing else does. A suspension is an outcome, and the next
activation starts at the entry again, where the answer of a dispatch may write the temp that is
resumed with.

Runs are related by an invariant of the two memories in front of each position. If every dropped
instruction is silent, and every other one has the same answers as what takes its place, then the
two codes act alike and end alike.
-/

namespace ScriptLowering

/-- Where control goes behind an instruction. -/
inductive Next (O : Type) where
  | fall
  | goto (label : Label)
  | finish (outcome : O)

/-- What an instruction does. -/
structure Answer (V W A O : Type) where
  /-- Its calls and its effects on fields, properties and arguments, in order. -/
  actions : List A
  writes : List (Temp × V)
  world : W
  next : Next O

/-- An instruction that does nothing but define a temp. -/
def Answer.value {V W A O : Type} (t : Temp) (v : V) (w : W) : Answer V W A O :=
  ⟨[], [(t, v)], w, .fall⟩

/-- How an instruction may answer to the values that it reads. Of its position only the labels in
front of it are known; they tell the protected regions around. -/
abbrev Answers (V W A O : Type) :=
  List Label → Instr → List V → W → Answer V W A O → Prop

variable {V W A O : Type}

/-- Takes over what an instruction has written. -/
def Memory.write (σ : Memory V W) (a : Answer V W A O) : Memory V W :=
  { σ with
    temps := a.writes.foldl (fun temps p => Function.update temps p.1 p.2) σ.temps
    world := a.world }

/-- The same is written to a temp. -/
theorem Memory.temps_write_congr {σ σ' : Memory V W} {t : Temp} (h : σ'.temps t = σ.temps t)
    (a : Answer V W A O) : (σ'.write a).temps t = (σ.write a).temps t := by
  suffices hfold : ∀ (writes : List (Temp × V)) {temps temps' : Temp → V}, temps' t = temps t →
      writes.foldl (fun temps p => Function.update temps p.1 p.2) temps' t
        = writes.foldl (fun temps p => Function.update temps p.1 p.2) temps t from hfold a.writes h
  intro writes
  induction writes with
  | nil => exact fun h => h
  | cons p writes ih =>
    intro temps temps' h
    refine ih ?_
    show Function.update temps' p.1 p.2 t = Function.update temps p.1 p.2 t
    by_cases heq : t = p.1
    · rw [heq, Function.update_self, Function.update_self]
    · rw [Function.update_of_ne heq, Function.update_of_ne heq, h]

namespace Answers

/-- One instruction, carried out behind the given labels. -/
inductive Takes (I : Answers V W A O) (labels : List Label) :
    Instr → Memory V W → List A → Memory V W → Next O → Prop
  | load {t : Temp} {slot : Slot} {σ : Memory V W} :
      Takes I labels (.define t (.loadSlot slot)) σ [] (σ.set t (σ.slots slot)) .fall
  | store {t : Temp} {slot : Slot} {σ : Memory V W} :
      Takes I labels (.perform (.storeSlot slot t)) σ []
        { σ with slots := Function.update σ.slots slot (σ.temps t) } .fall
  | answer {i : Instr} {σ : Memory V W} {a : Answer V W A O} (hslot : i.slotAccess? = none)
      (h : I labels i (i.uses.map σ.temps) σ.world a) : Takes I labels i σ a.actions (σ.write a) a.next

variable {I : Answers V W A O} {labels : List Label} {i i' : Instr} {σ σ' τ : Memory V W}
  {actions : List A} {next : Next O}

theorem takes_iff (hslot : i.slotAccess? = none) : I.Takes labels i σ actions τ next ↔
    ∃ a, I labels i (i.uses.map σ.temps) σ.world a ∧ actions = a.actions ∧ τ = σ.write a ∧
      next = a.next := by
  constructor
  · intro h
    cases h with
    | load => cases hslot
    | store => cases hslot
    | answer _ h => exact ⟨_, h, rfl, rfl, rfl⟩
  · rintro ⟨a, h, rfl, rfl, rfl⟩
    exact .answer hslot h

/-- Runs of code from its entry: what was done so far, where control is, and what the memory
holds. -/
inductive Runs (I : Answers V W A O) (code : List Instr) (σ₀ : Memory V W) :
    List A → Nat → Memory V W → Prop
  | start : Runs I code σ₀ [] 0 σ₀
  | fall {n : Nat} {σ τ : Memory V W} {past actions : List A} {i : Instr} (h : Runs I code σ₀ past n σ)
      (hi : code[n]? = some i) (htakes : I.Takes (placedLabels (code.take n)) i σ actions τ .fall) :
      Runs I code σ₀ (past ++ actions) (n + 1) τ
  | goto {n m : Nat} {σ τ : Memory V W} {past actions : List A} {i : Instr} {l : Label}
      (h : Runs I code σ₀ past n σ) (hi : code[n]? = some i)
      (htakes : I.Takes (placedLabels (code.take n)) i σ actions τ (.goto l))
      (hm : code[m]? = some (.label l)) : Runs I code σ₀ (past ++ actions) m τ

/-- The code ends with an outcome, after the given actions, and leaves a memory behind. -/
def Finishes (I : Answers V W A O) (code : List Instr) (σ₀ : Memory V W) (actions : List A) (o : O)
    (τ : Memory V W) : Prop :=
  ∃ past n σ i last, I.Runs code σ₀ past n σ ∧ code[n]? = some i ∧
    I.Takes (placedLabels (code.take n)) i σ last τ (.finish o) ∧ actions = past ++ last

/-- The results of two steps, of which each has one of the other to go with it. -/
def Alike (R : Memory V W → Memory V W → Prop) (P Q : Memory V W → Prop) : Prop :=
  (∀ τ, P τ → ∃ τ', Q τ' ∧ R τ τ') ∧ ∀ τ', Q τ' → ∃ τ, P τ ∧ R τ τ'

theorem Alike.mono {R R' : Memory V W → Memory V W → Prop} {P Q : Memory V W → Prop} (h : Alike R P Q)
    (hR : ∀ τ τ', R τ τ' → R' τ τ') : Alike R' P Q :=
  ⟨fun τ hτ => have ⟨τ', hτ', hrel⟩ := h.1 τ hτ; ⟨τ', hτ', hR τ τ' hrel⟩,
    fun τ' hτ' => have ⟨τ, hτ, hrel⟩ := h.2 τ' hτ'; ⟨τ, hτ, hR τ τ' hrel⟩⟩

/-- Two instructions with the same answers. -/
theorem alike_of_answers {R : Memory V W → Memory V W → Prop} (hslot : i.slotAccess? = none)
    (hslot' : i'.slotAccess? = none)
    (hanswers : ∀ a, I labels i' (i'.uses.map σ'.temps) σ'.world a ↔
      I labels i (i.uses.map σ.temps) σ.world a)
    (hR : ∀ a : Answer V W A O, R (σ.write a) (σ'.write a)) :
    Alike R (I.Takes labels i σ actions · next) (I.Takes labels i' σ' actions · next) := by
  simp only [Alike, takes_iff hslot, takes_iff hslot', hanswers]
  constructor
  · rintro _ ⟨a, h, hactions, rfl, hnext⟩
    exact ⟨_, ⟨a, h, hactions, rfl, hnext⟩, hR a⟩
  · rintro _ ⟨a, h, hactions, rfl, hnext⟩
    exact ⟨_, ⟨a, h, hactions, rfl, hnext⟩, hR a⟩

end Answers

/-! ### Positions -/

namespace Revision

variable {r : Revision} {n k : Nat} {i i' : Instr}

/-- Where the entry at a position, if it stays, is found behind the pass. -/
def place (r : Revision) (n : Nat) : Nat :=
  (behind (r.take n)).length

theorem place_succ_of_none (h : r[n]? = some (i, none)) : r.place (n + 1) = r.place n := by
  simp [place, List.take_add_one, h]

theorem place_succ_of_some (h : r[n]? = some (i, some i')) : r.place (n + 1) = r.place n + 1 := by
  simp [place, List.take_add_one, h]

theorem getElem?_before {o : Option Instr} (h : r[n]? = some (i, o)) : r.before[n]? = some i := by
  simp [before, h]

theorem exists_of_before (h : r.before[n]? = some i) : ∃ o, r[n]? = some (i, o) := by
  obtain ⟨⟨_, o⟩, hentry, rfl⟩ := Option.map_eq_some_iff.1 (List.getElem?_map.symm.trans h)
  exact ⟨o, hentry⟩

theorem getElem?_behind (h : r[n]? = some (i, some i')) : r.behind[r.place n]? = some i' := by
  have hsplit : r.behind = behind (r.take n) ++ i' :: behind (r.drop (n + 1)) := by
    conv_lhs => rw [← r.take_append_drop n, List.drop_eq_getElem?_toList_append, h]
    simp
  rw [hsplit, place, List.getElem?_append_right le_rfl, Nat.sub_self]
  rfl

theorem exists_of_behind (h : r.behind[k]? = some i') :
    ∃ n i, r[n]? = some (i, some i') ∧ r.place n = k := by
  obtain ⟨front, i, rest, hr, htake⟩ := exists_split h
  refine ⟨front.length, i, by simp [hr], ?_⟩
  have hk := (List.getElem?_eq_some_iff.1 h).1
  rw [place, hr, List.take_left, htake, List.length_take, Nat.min_eq_left hk.le]

/-- The entry that a place belongs to, unless it is that of a dropped instruction. -/
theorem eq_of_place (h : r.behind[r.place n]? = some i') (hn : ∀ i, r[n]? ≠ some (i, none)) :
    ∃ i, r[n]? = some (i, some i') := by
  cases hentry : r[n]? with
  | none =>
    have hall : r.take n = r := List.take_of_length_le (List.getElem?_eq_none_iff.1 hentry)
    rw [place, hall, List.getElem?_eq_none le_rfl] at h
    cases h
  | some p =>
    obtain ⟨i, _ | j⟩ := p
    · exact absurd hentry (hn i)
    · exact ⟨i, by rw [← getElem?_behind hentry, h]⟩

/-- Labels stay where they are. -/
def KeepsLabels (r : Revision) : Prop :=
  ∀ i o, (i, o) ∈ r → i.placed = o.elim [] Instr.placed

theorem KeepsLabels.placedLabels_eq (h : r.KeepsLabels) : placedLabels r.behind = placedLabels r.before := by
  induction r with
  | nil => rfl
  | cons p r ih =>
    have hp := h p.1 p.2 (.head _)
    rw [before_cons, placedLabels_cons, ← ih fun i o hmem => h i o (.tail _ hmem), hp, behind_cons]
    obtain ⟨i, _ | i'⟩ := p <;> rfl

theorem KeepsLabels.placedLabels_take (h : r.KeepsLabels) (n : Nat) :
    placedLabels (r.behind.take (r.place n)) = placedLabels (r.before.take n) := by
  have hsplit : r.behind = behind (r.take n) ++ behind (r.drop n) := by
    rw [← behind_append, List.take_append_drop]
  have hbehind : r.behind.take (r.place n) = behind (r.take n) := by rw [hsplit, place, List.take_left]
  have hbefore : r.before.take n = before (r.take n) := List.map_take.symm
  rw [hbehind, hbefore]
  exact KeepsLabels.placedLabels_eq fun i o hmem => h i o (List.mem_of_mem_take hmem)

theorem KeepsLabels.label_iff (h : r.KeepsLabels) (hentry : r[n]? = some (i, some i')) (l : Label) :
    i' = .label l ↔ i = .label l := by
  have hplaced : i.placed = i'.placed := h i _ (List.mem_of_getElem? hentry)
  have hlabel : ∀ j : Instr, j = .label l ↔ j.placed = [l] := by
    intro j
    cases j <;> simp [Instr.placed]
  rw [hlabel, hlabel, hplaced]

/-! ### Runs -/

open Answers

variable {I : Answers V W A O} {σ₀ σ₀' σ σ' : Memory V W} {C : Nat → Memory V W → Memory V W → Prop}
  {past : List A}

/-- The revised code can follow the code. `C n` relates the memories in front of position `n`. A
dropped instruction is silent, and what takes the place of any other one gives the same answers.
Behind it the memories are related wherever control may go. -/
structure Follows (r : Revision) (I : Answers V W A O) (σ₀ : Memory V W)
    (C : Nat → Memory V W → Memory V W → Prop) : Prop where
  labels : r.KeepsLabels
  drop : ∀ {past n σ σ' i}, I.Runs r.before σ₀ past n σ → C n σ σ' → r[n]? = some (i, none) →
    ∃ τ, C (n + 1) τ σ' ∧ ∀ labels actions ρ next,
      I.Takes labels i σ actions ρ next ↔ actions = [] ∧ ρ = τ ∧ next = .fall
  keep : ∀ {past n σ σ' i i'}, I.Runs r.before σ₀ past n σ → C n σ σ' → r[n]? = some (i, some i') →
    ∀ labels actions next, Alike
      (fun τ τ' => C (n + 1) τ τ' ∧ ∀ m l, r[m]? = some (.label l, some (.label l)) → C m τ τ')
      (I.Takes labels i σ actions · next) (I.Takes labels i' σ' actions · next)

namespace Follows

/-- The revised code follows each run. -/
theorem runs (h : r.Follows I σ₀ C) (hstart : C 0 σ₀ σ₀') (hrun : I.Runs r.before σ₀ past n σ) :
    ∃ σ', I.Runs r.behind σ₀' past (r.place n) σ' ∧ C n σ σ' := by
  induction hrun with
  | start => exact ⟨σ₀', .start, hstart⟩
  | fall hrun hi htakes ih =>
    obtain ⟨σ', hrun', hC⟩ := ih
    obtain ⟨_ | i', hentry⟩ := exists_of_before hi
    · obtain ⟨τ, hC', hsilent⟩ := h.drop hrun hC hentry
      obtain ⟨rfl, rfl, -⟩ := (hsilent _ _ _ _).1 htakes
      exact ⟨σ', by rwa [List.append_nil, place_succ_of_none hentry], hC'⟩
    · obtain ⟨τ', htakes', hC', -⟩ := (h.keep hrun hC hentry _ _ _).1 _ htakes
      rw [← h.labels.placedLabels_take] at htakes'
      exact ⟨τ', place_succ_of_some hentry ▸ hrun'.fall (getElem?_behind hentry) htakes', hC'⟩
  | goto hrun hi htakes hm ih =>
    obtain ⟨σ', hrun', hC⟩ := ih
    obtain ⟨_ | i', hentry⟩ := exists_of_before hi
    · obtain ⟨τ, -, hsilent⟩ := h.drop hrun hC hentry
      cases ((hsilent _ _ _ _).1 htakes).2.2
    · obtain ⟨τ', htakes', -, hC'⟩ := (h.keep hrun hC hentry _ _ _).1 _ htakes
      obtain ⟨_ | j, hlabel⟩ := exists_of_before hm
      · cases h.labels _ _ (List.mem_of_getElem? hlabel)
      obtain rfl := (h.labels.label_iff hlabel _).2 rfl
      rw [← h.labels.placedLabels_take] at htakes'
      exact ⟨τ', hrun'.goto (getElem?_behind hentry) htakes' (getElem?_behind hlabel), hC' _ _ hlabel⟩

/-- Dropped instructions are run through without the revised code. -/
theorem exists_settled (h : r.Follows I σ₀ C) (hrun : I.Runs r.before σ₀ past n σ) (hC : C n σ σ') :
    ∃ m τ, I.Runs r.before σ₀ past m τ ∧ r.place m = r.place n ∧ C m τ σ' ∧
      ∀ i, r[m]? ≠ some (i, none) := by
  induction hlength : r.length - n generalizing n σ with
  | zero =>
    have hend : r[n]? = none := List.getElem?_eq_none (by omega)
    exact ⟨n, σ, hrun, rfl, hC, by simp [hend]⟩
  | succ k ih =>
    by_cases hdrop : ∃ i, r[n]? = some (i, none)
    · obtain ⟨i, hentry⟩ := hdrop
      obtain ⟨τ, hC', hsilent⟩ := h.drop hrun hC hentry
      have hnext := hrun.fall (getElem?_before hentry) ((hsilent _ _ _ _).2 ⟨rfl, rfl, rfl⟩)
      rw [List.append_nil] at hnext
      obtain ⟨m, ρ, hrun', hplace, hsettled⟩ := ih hnext hC' (by omega)
      exact ⟨m, ρ, hrun', hplace.trans (place_succ_of_none hentry), hsettled⟩
    · exact ⟨n, σ, hrun, rfl, hC, fun i hentry => hdrop ⟨i, hentry⟩⟩

/-- Each run of the revised code follows one. -/
theorem exists_run (h : r.Follows I σ₀ C) (hstart : C 0 σ₀ σ₀') (hrun : I.Runs r.behind σ₀' past k σ') :
    ∃ n σ, I.Runs r.before σ₀ past n σ ∧ r.place n = k ∧ C n σ σ' ∧ ∀ i, r[n]? ≠ some (i, none) := by
  induction hrun with
  | start => exact h.exists_settled .start hstart
  | fall hrun' hi' htakes' ih =>
    obtain ⟨n, σ, hrun, rfl, hC, hn⟩ := ih
    obtain ⟨i, hentry⟩ := eq_of_place hi' hn
    rw [h.labels.placedLabels_take] at htakes'
    obtain ⟨τ, htakes, hC', -⟩ := (h.keep hrun hC hentry _ _ _).2 _ htakes'
    obtain ⟨m, ρ, hm, hplace, hsettled⟩ :=
      h.exists_settled (hrun.fall (getElem?_before hentry) htakes) hC'
    exact ⟨m, ρ, hm, hplace.trans (place_succ_of_some hentry), hsettled⟩
  | goto hrun' hi' htakes' hm' ih =>
    obtain ⟨n, σ, hrun, rfl, hC, hn⟩ := ih
    obtain ⟨i, hentry⟩ := eq_of_place hi' hn
    rw [h.labels.placedLabels_take] at htakes'
    obtain ⟨τ, htakes, -, hC'⟩ := (h.keep hrun hC hentry _ _ _).2 _ htakes'
    obtain ⟨m, j, hlabel, rfl⟩ := exists_of_behind hm'
    obtain rfl := (h.labels.label_iff hlabel _).1 rfl
    exact ⟨m, τ, hrun.goto (getElem?_before hentry) htakes (getElem?_before hlabel), rfl, hC' m _ hlabel,
      by simp [hlabel]⟩

/-- Both codes come to the same actions. -/
theorem runs_alike (h : r.Follows I σ₀ C) (hstart : C 0 σ₀ σ₀') (past : List A) :
    Alike (fun τ τ' => ∃ n, C n τ τ') (fun τ => ∃ n, I.Runs r.before σ₀ past n τ)
      fun τ' => ∃ n, I.Runs r.behind σ₀' past n τ' := by
  constructor
  · rintro τ ⟨n, hrun⟩
    obtain ⟨τ', hrun', hC⟩ := h.runs hstart hrun
    exact ⟨τ', ⟨_, hrun'⟩, n, hC⟩
  · rintro τ' ⟨k, hrun'⟩
    obtain ⟨n, τ, hrun, -, hC, -⟩ := h.exists_run hstart hrun'
    exact ⟨τ, ⟨n, hrun⟩, n, hC⟩

/-- The revised code ends with the same outcomes, after the same actions. -/
theorem finishes_alike (h : r.Follows I σ₀ C) (hstart : C 0 σ₀ σ₀') (actions : List A) (o : O) :
    Alike (fun τ τ' => ∃ n, C n τ τ') (I.Finishes r.before σ₀ actions o)
      (I.Finishes r.behind σ₀' actions o) := by
  constructor
  · rintro τ ⟨past, n, σ, i, last, hrun, hi, htakes, rfl⟩
    obtain ⟨σ', hrun', hC⟩ := h.runs hstart hrun
    obtain ⟨_ | i', hentry⟩ := exists_of_before hi
    · obtain ⟨τ, -, hsilent⟩ := h.drop hrun hC hentry
      cases ((hsilent _ _ _ _).1 htakes).2.2
    · obtain ⟨τ', htakes', hC', -⟩ := (h.keep hrun hC hentry _ _ _).1 _ htakes
      rw [← h.labels.placedLabels_take] at htakes'
      exact ⟨τ', ⟨past, r.place n, σ', i', last, hrun', getElem?_behind hentry, htakes', rfl⟩, _, hC'⟩
  · rintro τ' ⟨past, k, σ', i', last, hrun', hi', htakes', rfl⟩
    obtain ⟨n, σ, hrun, rfl, hC, hn⟩ := h.exists_run hstart hrun'
    obtain ⟨i, hentry⟩ := eq_of_place hi' hn
    rw [h.labels.placedLabels_take] at htakes'
    obtain ⟨τ, htakes, hC', -⟩ := (h.keep hrun hC hentry _ _ _).2 _ htakes'
    exact ⟨τ, ⟨past, n, σ, i, last, hrun, getElem?_before hentry, htakes, rfl⟩, _, hC'⟩

end Follows

end Revision

end ScriptLowering
