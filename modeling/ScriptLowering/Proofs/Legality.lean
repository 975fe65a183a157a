import Mathlib.Data.Set.Basic
import ScriptLowering.Proofs.Outline

/-!
# Legal outlines

What an instruction may do depends on where it stands. Inside a protected region a branch must not
leave the region, a `leave` must not leave a finally handler, and the function must neither return
nor suspend. `Outline.Legal` says all this by recursion over the outline, with the `Jumps` that are
possible where an instruction stands as a parameter. Everything else that legality depends on is
fixed for a body: the function, and the tables of the finished session.
-/

namespace ScriptLowering

variable {f : Function} {J J' : Jumps} {z : Session}

/-! ### Jumps -/

/-- The labels that a frame directs jumps, returns and exceptions to. -/
def Frame.labels : Frame → List Label
  | .loop exit next _ => [exit, next]
  | .switch exit | .labeled exit _ => [exit]
  | .guarded | .finallyHandler => []
  | .routed route =>
    route.throwLabel :: (match route.finallyRoute with
      | none => []
      | some final => [final.entry, final.exit])

/-- The labels of all open frames. -/
def Context.labels (ctx : Context) : List Label :=
  ctx.frames.flatMap Frame.labels

/-- Which jumps are possible from a point of the code. -/
structure Jumps where
  /-- The labels in the same protected ranges. -/
  branch : Set Label
  /-- The labels that only a `leave` reaches. -/
  leave : Set Label
  /-- The point lies in a protected region. -/
  isNative : Bool
  /-- The shared exit can be reached: the point lies in no finally handler. -/
  mayExit : Bool

namespace Jumps

/-- With further labels in the same protected ranges. -/
def withLabels (J : Jumps) (labels : List Label) : Jumps :=
  { J with branch := J.branch ∪ {l | l ∈ labels} }

/-- With further labels that a `leave` reaches. -/
def withLeaves (J : Jumps) (labels : List Label) : Jumps :=
  { J with leave := J.leave ∪ {l | l ∈ labels} }

/-- Inside a protected range or a catch handler. -/
def guarded (J : Jumps) : Jumps :=
  { branch := ∅, leave := J.leave ∪ J.branch, isNative := true, mayExit := J.mayExit }

/-- Inside a finally handler, out of which no jump leads. -/
def finalizing : Jumps :=
  { branch := ∅, leave := ∅, isNative := true, mayExit := false }

/-- Inside the handler of a region. -/
def handler (J : Jumps) (exception : Option Temp) : Jumps :=
  if exception.isSome then J.guarded else finalizing

/-- Inside one more frame. -/
def enter (J : Jumps) : Frame → Jumps
  | .guarded => J.guarded
  | .finallyHandler => finalizing
  | frame => J.withLabels frame.labels

/-- The jumps that are possible inside the given frames, innermost first. -/
def ofFrames : List Frame → Jumps
  | [] => { branch := ∅, leave := ∅, isNative := false, mayExit := true }
  | frame :: outer => (ofFrames outer).enter frame

/-- Whatever is possible here is possible there. -/
structure Le (J J' : Jumps) : Prop where
  branch : J.branch ⊆ J'.branch
  leave : J.leave ⊆ J'.leave ∪ J'.branch
  isNative : J'.isNative = J.isNative
  mayExit : J'.mayExit = J.mayExit

variable {J J' J'' : Jumps} {ls ls' : List Label}

theorem Le.refl (J : Jumps) : J.Le J :=
  ⟨subset_rfl, Set.subset_union_left, rfl, rfl⟩

theorem Le.withLabels (h : J.Le J') (hls : ∀ l ∈ ls, l ∈ J'.branch ∨ l ∈ ls') :
    (J.withLabels ls).Le (J'.withLabels ls') where
  branch l hl := by
    rcases hl with hl | hl
    · exact .inl (h.branch hl)
    · exact hls l hl
  leave l hl := by
    rcases h.leave hl with hl | hl
    · exact .inl hl
    · exact .inr (.inl hl)
  isNative := h.isNative
  mayExit := h.mayExit

theorem Le.guarded (h : J.Le J') : J.guarded.Le J'.guarded where
  branch := subset_rfl
  leave l hl := by
    rcases hl with hl | hl
    · exact .inl (h.leave hl)
    · exact .inl (.inr (h.branch hl))
  isNative := rfl
  mayExit := h.mayExit

theorem Le.handler (h : J.Le J') (exception : Option Temp) :
    (J.handler exception).Le (J'.handler exception) := by
  unfold Jumps.handler
  split
  · exact h.guarded
  · exact Le.refl _

end Jumps

/-! ### Legality -/

/-- An operation that may stand by itself: the exception is loaded in front of a handler only, and
no outline shows a fused addition. -/
def Operation.Legal : Operation → Prop
  | .loadException | .addToNumber .. => False
  | _ => True

/-- What an instruction may do where it stands by itself. -/
def Instr.Legal (f : Function) (z : Session) (J : Jumps) : Instr → Prop
  | .define _ op => op.Legal
  | .branch target | .branchIf _ _ target => target ∈ J.branch
  | .leave target => target ∈ J.branch ∨ target ∈ J.leave ∨
    (J.mayExit = true ∧ ∃ e, z.epilogue = some e ∧ e.label = target)
  | .ret _ | .asyncReject _ => J.isNative = false
  | .dispatch targets start => f.isResumable = true ∧ targets = [] ∧ J.isNative = false ∧
    start ∈ J.branch
  | .suspend _ _ _ l _ _ => f.isResumable = true ∧ J.isNative = false ∧ l ∈ J.branch
  | .endFinally => False
  | .label _ | .perform _ | .raise _ => True

/-- What an element of an outline may do. -/
def Item.Legal (f : Function) (z : Session) (J : Jumps) : Item → Prop
  | .instr i => i.Legal f z J
  | .point p => f.isResumable = true ∧ J.isNative = false ∧ p.label ∈ J.branch
  | .exit e => z.epilogue = some e

/-- The last instruction other than a label is a `leave`, or ends a finally handler. -/
def EndsByLeaving (c : List Instr) : Prop :=
  ∃ before i after, c = before ++ i :: after ∧ (i = .endFinally ∨ ∃ l, i = .leave l) ∧
    ∀ j ∈ after, ∃ l, j = .label l

/-- A legal outline: regions are entered and left as their handlers require. -/
def Outline.Legal (f : Function) (z : Session) : Jumps → Outline → Prop
  | _, .nil => True
  | J, .item x rest => x.Legal f z J ∧ rest.Legal f z J
  | J, .region r exception body handler rest =>
    r.tryEnd = r.handlerStart ∧ (r.kind = .catchHandler ↔ exception.isSome) ∧
    EndsByLeaving body.code ∧ EndsByLeaving (handler.code ++ handlerClosing exception) ∧
    body.Legal f z (J.guarded.withLabels body.tops) ∧
    handler.Legal f z ((J.handler exception).withLabels handler.tops) ∧ rest.Legal f z J

theorem Outline.Legal.append {a b : Outline} (ha : a.Legal f z J) (hb : b.Legal f z J) :
    (a ++ b).Legal f z J := by
  induction a with
  | nil => exact hb
  | item x rest ih => exact ⟨ha.1, ih ha.2⟩
  | region r exception body handler rest _ _ ih =>
    obtain ⟨h₁, h₂, h₃, h₄, h₅, h₆, hrest⟩ := ha
    exact ⟨h₁, h₂, h₃, h₄, h₅, h₆, ih hrest⟩

theorem Instr.Legal.mono {i : Instr} (hi : i.Legal f z J) (hJ : J.Le J') : i.Legal f z J' := by
  cases i with
  | branch target => exact hJ.branch hi
  | branchIf expected condition target => exact hJ.branch hi
  | leave target =>
    rcases hi with hi | hi | ⟨hexit, hi⟩
    · exact .inl (hJ.branch hi)
    · rcases hJ.leave hi with hi | hi
      · exact .inr (.inl hi)
      · exact .inl hi
    · exact .inr (.inr ⟨hJ.mayExit.trans hexit, hi⟩)
  | ret value => exact hJ.isNative.trans hi
  | asyncReject reason => exact hJ.isNative.trans hi
  | dispatch targets start =>
    obtain ⟨hres, hempty, hnative, hstart⟩ := hi
    exact ⟨hres, hempty, hJ.isNative.trans hnative, hJ.branch hstart⟩
  | suspend kind value state label result reject =>
    exact ⟨hi.1, hJ.isNative.trans hi.2.1, hJ.branch hi.2.2⟩
  | _ => exact hi

theorem Item.Legal.mono {x : Item} (hx : x.Legal f z J) (hJ : J.Le J') : x.Legal f z J' := by
  cases x with
  | instr i => exact Instr.Legal.mono hx hJ
  | point p => exact ⟨hx.1, hJ.isNative.trans hx.2.1, hJ.branch hx.2.2⟩
  | _ => exact hx

/-- An outline stays legal where more jumps are possible. -/
theorem Outline.Legal.mono {o : Outline} (ho : o.Legal f z J) (hJ : J.Le J') :
    o.Legal f z J' := by
  induction o generalizing J J' with
  | nil => trivial
  | item x rest ih => exact ⟨ho.1.mono hJ, ih ho.2 hJ⟩
  | region r exception body handler rest ihb ihh ih =>
    obtain ⟨h₁, h₂, h₃, h₄, hbody, hhandler, hrest⟩ := ho
    refine ⟨h₁, h₂, h₃, h₄, ihb hbody ?_, ihh hhandler ?_, ih hrest hJ⟩
    · exact hJ.guarded.withLabels fun l hl => .inr hl
    · exact (hJ.handler exception).withLabels fun l hl => .inr hl

end ScriptLowering
