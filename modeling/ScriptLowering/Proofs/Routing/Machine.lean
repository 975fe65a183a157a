import Mathlib.Logic.Function.Basic
import Mathlib.Logic.Relation
import Mathlib.Order.Interval.Set.Basic
import ScriptLowering.Proofs.StateName
import ScriptLowering.Proofs.WriteOnce.Tidy

/-!
# Running resumable code

A machine for the code of a resumable function: a position in the code, the temps, the state fields
and the rest of the world. The instructions that routing is made of have their meaning here: labels,
branches, constants, loads and stores of state fields, and the rejection of an `await`, for which
the driver stores the reason in the pending field and goes on at the label of the reject state. What
the other instructions do is a parameter.

A piece of code *completes* normally, with an exception or with a return value. `Program.Arrives`
says where the machine is then and what the pending fields hold, depending on the regions around the
piece: an exception is at the throw label of the innermost routed region, a return at its finally
block. In the absence of such a region the machine is at the code that throws or returns the value.
-/

namespace ScriptLowering

/-- A value at run time. -/
inductive Datum (V : Type) where
  | literal (value : Literal)
  | other (value : V)

/-- A branch on the value is taken as on `true`. -/
def Datum.isTrue {V : Type} : Datum V → Bool
  | .literal (.bool b) => b
  | _ => false

/-- A state of the machine. -/
structure Machine (V W : Type) where
  /-- The position of the next instruction. -/
  pc : Nat
  temps : Temp → Datum V
  /-- The fields of capture objects. -/
  fields : FieldRef → Datum V
  /-- Everything else. -/
  world : W

/-- The instruction is part of the routing and has a fixed meaning. -/
def Instr.isRouting : Instr → Bool
  | .label _ | .branch _ | .branchIf _ _ _ => true
  | .define _ (.literal _) | .define _ (.loadLeafField _) => true
  | .perform (.storeLeafField _ _) => true
  | _ => false

/-- The instruction is an addition, whose form may still change. -/
def Instr.isAddition : Instr → Bool
  | .define _ (.add _ _) | .define _ (.addToNumber _ _) => true
  | _ => false

theorem Instr.eq_of_unfused {i j : Instr} (h : j.unfused = i.unfused) (hi : i.isAddition = false) :
    j = i := by
  unfold unfused at h
  split at h
  · split at h
    · cases hi
    · subst h
      cases hi
  · split at h
    · cases hi
    · exact h

/-- What the machine runs. -/
structure Program (V W : Type) where
  code : List Instr
  /-- The resume points that the driver knows. -/
  points : List ResumePoint
  /-- What the instructions do that are no part of the routing. -/
  other : Instr → Machine V W → Machine V W → Prop

variable {V W : Type}
variable {s s' : Session}

namespace Machine

/-- Goes on to the next instruction. -/
def next (σ : Machine V W) : Machine V W :=
  { σ with pc := σ.pc + 1 }

/-- Continues elsewhere. -/
def goto (σ : Machine V W) (n : Nat) : Machine V W :=
  { σ with pc := n }

/-- Sets a temp and goes on. -/
def set (σ : Machine V W) (t : Temp) (v : Datum V) : Machine V W :=
  { σ with pc := σ.pc + 1, temps := Function.update σ.temps t v }

/-- Sets a state field and goes on. -/
def store (σ : Machine V W) (f : FieldRef) (v : Datum V) : Machine V W :=
  { σ with pc := σ.pc + 1, fields := Function.update σ.fields f v }

/-- Everything but the position, the temps and the fields of `S` is the same. -/
structure SameBut (S : Set FieldRef) (σ τ : Machine V W) : Prop where
  world : τ.world = σ.world
  fields : ∀ f, f ∉ S → τ.fields f = σ.fields f

variable {S S' : Set FieldRef} {σ τ υ : Machine V W}

theorem SameBut.refl (S : Set FieldRef) (σ : Machine V W) : SameBut S σ σ :=
  ⟨rfl, fun _ _ => rfl⟩

theorem SameBut.trans (h : SameBut S σ τ) (h' : SameBut S τ υ) : SameBut S σ υ :=
  ⟨h'.world.trans h.world, fun f hf => (h'.fields f hf).trans (h.fields f hf)⟩

theorem SameBut.mono (h : SameBut S σ τ) (hS : S ⊆ S') : SameBut S' σ τ :=
  ⟨h.world, fun f hf => h.fields f fun hmem => hf (hS hmem)⟩

end Machine

namespace Program

/-- One step of the machine. -/
inductive Step (p : Program V W) (σ : Machine V W) : Machine V W → Prop
  | label {l : Label} (h : p.code[σ.pc]? = some (.label l)) : Step p σ σ.next
  | branch {l : Label} {n : Nat} (h : p.code[σ.pc]? = some (.branch l))
      (hn : p.code[n]? = some (.label l)) : Step p σ (σ.goto n)
  | taken {b : Bool} {t : Temp} {l : Label} {n : Nat} (h : p.code[σ.pc]? = some (.branchIf b t l))
      (ht : (σ.temps t).isTrue = b) (hn : p.code[n]? = some (.label l)) : Step p σ (σ.goto n)
  | skipped {b : Bool} {t : Temp} {l : Label} (h : p.code[σ.pc]? = some (.branchIf b t l))
      (ht : (σ.temps t).isTrue ≠ b) : Step p σ σ.next
  | literal {t : Temp} {v : Literal} (h : p.code[σ.pc]? = some (.define t (.literal v))) :
      Step p σ (σ.set t (.literal v))
  | load {t : Temp} {f : FieldRef} (h : p.code[σ.pc]? = some (.define t (.loadLeafField f))) :
      Step p σ (σ.set t (σ.fields f))
  | store {f : FieldRef} {t : Temp} (h : p.code[σ.pc]? = some (.perform (.storeLeafField f t))) :
      Step p σ (σ.store f (σ.temps t))
  /-- The driver stores the reason and resumes at the label of the reject state. Meanwhile the world
  has moved on, and no temp has survived. -/
  | rejected {value result : Temp} {state : Nat} {l : Label} {r : RejectRoute} {q : ResumePoint}
      {n : Nat} (reason : Datum V) (temps : Temp → Datum V) (world : W)
      (h : p.code[σ.pc]? = some (.suspend .await value state l result (some r)))
      (hq : q ∈ p.points) (hstate : q.state = r.state) (hn : p.code[n]? = some (.label q.label)) :
      Step p σ ⟨n, temps, Function.update σ.fields r.pending reason, world⟩
  | other {i : Instr} {τ : Machine V W} (h : p.code[σ.pc]? = some i) (hi : i.isRouting = false)
      (hother : p.other i σ τ) : Step p σ τ

/-- A run that takes its steps at the positions of `S`. -/
def RunOn (p : Program V W) (S : Set Nat) : Machine V W → Machine V W → Prop :=
  Relation.ReflTransGen fun σ τ => σ.pc ∈ S ∧ p.Step σ τ

variable {p : Program V W} {S S' : Set Nat} {σ τ υ : Machine V W}

theorem RunOn.refl (σ : Machine V W) : p.RunOn S σ σ :=
  Relation.ReflTransGen.refl

theorem RunOn.trans (h : p.RunOn S σ τ) (h' : p.RunOn S τ υ) : p.RunOn S σ υ :=
  Relation.ReflTransGen.trans h h'

theorem RunOn.step (hpc : σ.pc ∈ S) (h : p.Step σ τ) : p.RunOn S σ τ :=
  Relation.ReflTransGen.single ⟨hpc, h⟩

theorem RunOn.mono (h : p.RunOn S σ τ) (hS : S ⊆ S') : p.RunOn S' σ τ :=
  Relation.ReflTransGen.mono (fun _ _ hstep => ⟨hS hstep.1, hstep.2⟩) _ _ h

/-- The program contains what was emitted between the two sessions. -/
structure Holds (p : Program V W) (s s' : Session) : Prop where
  code : ∀ n, s.code.size ≤ n → n < s'.code.size →
    (p.code[n]?).map Instr.unfused = (s'.code.toList[n]?).map Instr.unfused
  points : s'.resumePoints.toList ⊆ p.points

end Program

theorem Session.Grows.size_le (h : s.Grows s') : s.code.size ≤ s'.code.size := by
  simpa using h.code.length_le

theorem Session.Grows.getElem? (h : s.Grows s') {n : Nat} (hn : n < s.code.size) :
    (s'.code.toList[n]?).map Instr.unfused = (s.code.toList[n]?).map Instr.unfused := by
  obtain ⟨rest, hrest⟩ := h.code
  rw [← List.getElem?_map, ← List.getElem?_map, ← hrest,
    List.getElem?_append_left (by simpa using hn)]

namespace Program

variable {p : Program V W} {s s₁ s₂ s' : Session}

/-- What is between two sessions holds for what is between two sessions in between. -/
theorem Holds.between (h : p.Holds s s') (h₁ : s.Grows s₁) (h₂ : s₂.Grows s') : p.Holds s₁ s₂ where
  code n hn hn' := by
    rw [h.code n (h₁.size_le.trans hn) (hn'.trans_le h₂.size_le), h₂.getElem? hn']
  points := fun _ hq => h.points (h₂.points.subset hq)

/-- The program has what was emitted at a position. -/
theorem Holds.getElem? {i : Instr} {n : Nat} (h : p.Holds s s') (hn : s.code.size ≤ n)
    (hcode : s'.code[n]? = some i) (hi : i.isAddition = false) : p.code[n]? = some i := by
  have hsame := h.code n hn (Array.getElem?_eq_some_iff.1 hcode).1
  rw [Array.getElem?_toList, hcode] at hsame
  obtain ⟨j, hj, hsame⟩ := Option.map_eq_some_iff.1 hsame
  rw [hj, Instr.eq_of_unfused hsame hi]

/-- The program has an instruction where it was emitted. -/
theorem Holds.emitted {i : Instr} (h : p.Holds s s') (hcode : s'.code = s.code.push i)
    (hi : i.isAddition = false) : p.code[s.code.size]? = some i :=
  h.getElem? le_rfl (by simp [hcode]) hi

end Program

/-! ### Completions -/

/-- How a piece of code completes. -/
inductive Completion (V : Type) where
  | normal
  | throw (value : Datum V)
  | ret (value : Datum V)

/-- What is left of a completion after the finalizer has completed: an abrupt completion of the
finalizer takes its place. -/
def Completion.finallyThen (c : Completion V) : Completion V → Completion V
  | .normal => c
  | .throw v => .throw v
  | .ret v => .ret v

namespace PendingFields

/-- The state fields, in the capture object of the given name. -/
def refs (fields : PendingFields) (leaf : String) : Set FieldRef :=
  { f | ∃ name ∈ fields.names, f = ⟨leaf, name⟩ }

end PendingFields

namespace Context

/-- The pending fields of the routed regions around. -/
def pending (ctx : Context) : Set FieldRef :=
  { f | ∃ route, .routed route ∈ ctx.frames ∧ f ∈ route.fields.refs ctx.leafName }

/-- The pending fields that a completion writes. -/
def written (ctx : Context) : Completion V → Set FieldRef
  | .normal => ∅
  | .throw _ =>
    match Frame.innermostRegion? ctx.frames with
    | some (.routed route) => {⟨ctx.leafName, route.fields.exception⟩}
    | _ => ∅
  | .ret _ =>
    match ctx.frames.findSome? Frame.finallyRoute? with
    | some (fields, _) => fields.refs ctx.leafName
    | none => ∅

end Context

namespace Program

/-- The machine is at code that ends in the given way for the given value. -/
def Issues (p : Program V W) (ends : Temp → Lower Unit) (ctx : Context) (v : Datum V)
    (σ : Machine V W) : Prop :=
  ∃ t s s', ends t ctx s = .ok () s' ∧ p.Holds s s' ∧ σ.pc = s.code.size ∧ σ.temps t = v

/-- The machine is where code that was lowered in the context up to the session leads to when it
completes. -/
def Arrives (p : Program V W) (ctx : Context) (s : Session) :
    Completion V → Machine V W → Prop
  | .normal, σ => σ.pc = s.code.size
  | .throw v, σ =>
    match Frame.innermostRegion? ctx.frames with
    | some (.routed route) =>
      p.code[σ.pc]? = some (.label route.throwLabel) ∧
        σ.fields ⟨ctx.leafName, route.fields.exception⟩ = v
    | _ => p.Issues Lower.throwValue ctx v σ
  | .ret v, σ =>
    match ctx.frames.findSome? Frame.finallyRoute? with
    | some (fields, route) =>
      p.code[σ.pc]? = some (.label (if route.isInside then route.exit else route.entry)) ∧
        σ.fields ⟨ctx.leafName, fields.returnValue⟩ = v ∧
        (σ.fields ⟨ctx.leafName, fields.hasReturn⟩).isTrue = true ∧
        (σ.fields ⟨ctx.leafName, fields.hasException⟩).isTrue = false
    | none => p.Issues Lower.returnValue ctx v σ

end Program

/-- A run of a part of the lowering. -/
structure Lower.Site (m : Lower Unit) where
  ctx : Context
  before : Session
  after : Session
  run : m ctx before = .ok () after

/-- The positions of the code that was emitted. -/
def Lower.Site.span {m : Lower Unit} (a : Site m) : Set Nat :=
  Set.Ico a.before.code.size a.after.code.size

/-- From `σ` the code of the part completes in `τ`. On its way it has written no pending field but
those that its completion writes. -/
structure Program.Completes {m : Lower Unit} (p : Program V W) (a : Lower.Site m) (σ : Machine V W)
    (c : Completion V) (τ : Machine V W) : Prop where
  start : σ.pc = a.before.code.size
  run : p.RunOn a.span σ τ
  arrives : p.Arrives a.ctx a.after c τ
  keeps : ∀ f ∈ a.ctx.pending, f ∉ a.ctx.written c → τ.fields f = σ.fields f

end ScriptLowering
