import ScriptLowering.Lower.Function

/-!
# Outlines

The instruction list of a body is flat, but it was not produced at random: a protected region is one
piece of code followed by another, its handler. An `Outline` is an instruction list in which this
structure is still visible. Lowering never writes an outline down; what is proved is that the code
it appends always has one (`Proofs.Emission`).

Outlines also record two things that leave no instruction behind: that a resume point was
registered, and that the shared exit was allocated.

The fusion of an addition with the conversion behind it changes an instruction that is already
there. Outlines describe the code before that: `Instr.unfused` undoes the fusion, and up to it the
code of a session only ever grows at its end.
-/

namespace ScriptLowering

/-- The instruction before an addition was fused with the conversion of its result. -/
def Instr.unfused : Instr → Instr
  | .define result (.addToNumber left right) => .define result (.add left right)
  | instr => instr

/-- An element of an outline. -/
inductive Item where
  | instr (i : Instr)
  /-- A resume point was registered. -/
  | point (p : ResumePoint)
  /-- The shared exit was allocated; it is placed later. -/
  | exit (e : ReturnEpilogue)

namespace Item

/-- The instructions of an element. -/
def code : Item → List Instr
  | .instr i => [i]
  | .point _ | .exit _ => []

/-- The resume point that the element registers. -/
def points : Item → List ResumePoint
  | .point p => [p]
  | _ => []

/-- The shared exit that the element allocates. -/
def exits : Item → List ReturnEpilogue
  | .exit e => [e]
  | _ => []

/-- The label that the element places. -/
def tops : Item → List Label
  | .instr (.label l) => [l]
  | _ => []

/-- How often the element places the label of the given number, or sets it aside. -/
def tally (n : Nat) : Item → Nat
  | .instr (.label l) => if l.index = n then 1 else 0
  | .exit e => if e.label.index = n then 1 else 0
  | _ => 0

end Item

/-- The instruction list of a body, with its structure. -/
inductive Outline where
  | nil
  | item (item : Item) (rest : Outline)
  /-- A protected region. The handler of a catch region starts by loading the exception into the
  temp; a region without one has a finally handler, which ends by handing control back. -/
  | region (region : ExceptionRegion) (exception : Option Temp) (body handler rest : Outline)

/-- What stands in front of the code of a handler. -/
def handlerOpening : Option Temp → List Instr
  | some exception => [.define exception .loadException]
  | none => []

/-- What stands behind the code of a handler. -/
def handlerClosing : Option Temp → List Instr
  | some _ => []
  | none => [.endFinally]

namespace Outline

/-- The instructions. -/
def code : Outline → List Instr
  | nil => []
  | item x rest => x.code ++ rest.code
  | region r exception body handler rest =>
    .label r.tryStart :: body.code
      ++ .label r.handlerStart :: (handlerOpening exception ++ handler.code
        ++ handlerClosing exception)
      ++ .label r.handlerEnd :: rest.code

/-- The protected regions, inner ones first. -/
def regions : Outline → List ExceptionRegion
  | nil => []
  | item _ rest => rest.regions
  | region r _ body handler rest => body.regions ++ handler.regions ++ r :: rest.regions

/-- The resume points. -/
def points : Outline → List ResumePoint
  | nil => []
  | item x rest => x.points ++ rest.points
  | region _ _ body handler rest => body.points ++ handler.points ++ rest.points

/-- The shared exits that were allocated. -/
def exits : Outline → List ReturnEpilogue
  | nil => []
  | item x rest => x.exits ++ rest.exits
  | region _ _ body handler rest => body.exits ++ handler.exits ++ rest.exits

/-- The labels placed on the top level, inside no region. -/
def tops : Outline → List Label
  | nil => []
  | item x rest => x.tops ++ rest.tops
  | region _ _ _ _ rest => rest.tops

/-- How often the label of the given number is placed or set aside for the shared exit. -/
def tally (n : Nat) : Outline → Nat
  | nil => 0
  | item x rest => x.tally n + rest.tally n
  | region r _ body handler rest =>
    (if r.tryStart.index = n then 1 else 0) + body.tally n
      + (if r.handlerStart.index = n then 1 else 0) + handler.tally n
      + (if r.handlerEnd.index = n then 1 else 0) + rest.tally n

/-- One outline behind another. -/
def append : Outline → Outline → Outline
  | nil, o => o
  | item x rest, o => item x (rest.append o)
  | region r exception body handler rest, o => region r exception body handler (rest.append o)

instance : Append Outline := ⟨append⟩

/-- The outline of a single element. -/
def single (x : Item) : Outline := item x nil

/-! ### Appending -/

@[simp] theorem nil_append (o : Outline) : nil ++ o = o := rfl

@[simp] theorem item_append (x : Item) (a b : Outline) : item x a ++ b = item x (a ++ b) := rfl

@[simp] theorem region_append (r : ExceptionRegion) (t : Option Temp) (a b c d : Outline) :
    region r t a b c ++ d = region r t a b (c ++ d) := rfl

@[simp] theorem append_nil (o : Outline) : o ++ nil = o := by
  induction o <;> simp_all

@[simp] theorem code_append (a b : Outline) : (a ++ b).code = a.code ++ b.code := by
  induction a <;> simp_all [code]

@[simp] theorem regions_append (a b : Outline) : (a ++ b).regions = a.regions ++ b.regions := by
  induction a <;> simp_all [regions]

@[simp] theorem points_append (a b : Outline) : (a ++ b).points = a.points ++ b.points := by
  induction a <;> simp_all [points]

@[simp] theorem exits_append (a b : Outline) : (a ++ b).exits = a.exits ++ b.exits := by
  induction a <;> simp_all [exits]

@[simp] theorem tops_append (a b : Outline) : (a ++ b).tops = a.tops ++ b.tops := by
  induction a <;> simp_all [tops]

@[simp] theorem tally_append (n : Nat) (a b : Outline) :
    (a ++ b).tally n = a.tally n + b.tally n := by
  induction a <;> simp_all [tally] <;> omega

end Outline

end ScriptLowering
