import Mathlib.Data.List.Nodup
import ScriptLowering.Proofs.Flow
import ScriptLowering.Proofs.Legality

/-!
# A logic of emission

What is proved about lowered code is proved about the computations that emit it. The judgement
`Yields U K ctx L s I m O` says: whenever `m` succeeds in the context `ctx` from the session `s`,
the code that it appends has an outline that is legal, places its labels properly and passes the
availability check. The cells of `I` are available in front of the code and those of `O` behind it,
and the floor `K` throughout.

A construct allocates labels, jumps to them and places them in some order, and while only a part of
it has been emitted its code is not yet legal by itself. `Locals` is the state of such labels:
allocated only; *typed*, so that jumps to them can be checked; *due*, to be placed by the rest of
the computation. The rules below follow the computation from its first step to its last, and the
rule for an allocation closes the account of its label.
-/

namespace ScriptLowering

variable {ctx : Context} {s s' s'' : Session} {slot : Slot}

/-! ### Growing sessions -/

/-- The second session comes after the first one: what is recorded stays. -/
structure Session.Before (s s' : Session) : Prop where
  labels : s.labelCount ≤ s'.labelCount
  slots : ∀ (n : Nat) (e : SlotEntry), s.slots[n]? = some e →
    ∃ e', s'.slots[n]? = some e' ∧ e'.info = e.info
  epilogue : ∀ e, s.epilogue = some e → s'.epilogue = some e

theorem Session.Before.refl (s : Session) : s.Before s :=
  ⟨le_rfl, fun _ e h => ⟨e, h, rfl⟩, fun _ h => h⟩

theorem Session.Before.trans (h : s.Before s') (h' : s'.Before s'') :
    s.Before s'' where
  labels := h.labels.trans h'.labels
  slots n e he := by
    obtain ⟨e', he', hinfo⟩ := h.slots n e he
    obtain ⟨e'', he'', hinfo'⟩ := h'.slots n e' he'
    exact ⟨e'', he'', hinfo'.trans hinfo⟩
  epilogue e he := h'.epilogue e (h.epilogue e he)

/-- The slots of bindings are among the cells of `U`: a variable may be read before it is set. -/
def Session.Exempts (s : Session) (U : Set Cell) : Prop :=
  ∀ (slot : Slot) (e : SlotEntry), s.slots[slot.index]? = some e → e.info.binding.isSome →
    .slot slot ∈ U

/-- The slot is in the table and holds a binding. -/
def Session.NamedSlot (s : Session) (slot : Slot) : Prop :=
  ∃ e, s.slots[slot.index]? = some e ∧ e.info.binding.isSome

@[grind →] theorem Session.NamedSlot.mono (hs : s.NamedSlot slot)
    (h : s.Before s') : s'.NamedSlot slot := by
  obtain ⟨e, he, hnamed⟩ := hs
  obtain ⟨e', he', hinfo⟩ := h.slots _ e he
  exact ⟨e', he', hinfo ▸ hnamed⟩

theorem Session.NamedSlot.mem {U : Set Cell} (hs : s.NamedSlot slot)
    (h : s.Exempts U) : .slot slot ∈ U := by
  obtain ⟨e, he, hnamed⟩ := hs
  exact h slot e he hnamed

/-- The cell that a carrier keeps its value in; a state field survives everything. -/
def Carrier.cells (carrier : Carrier) : Set Cell :=
  match carrier.place with
  | .slot slot => {.slot slot}
  | .stateField _ => ∅

/-- The code may be left by a suspension. -/
def Context.mayPause (ctx : Context) : Bool :=
  ctx.isResumable && !ctx.frames.any Frame.isNative

/-- What a session keeps true of its surroundings. -/
structure Context.Inv (ctx : Context) (s : Session) : Prop where
  frames : ∀ l ∈ ctx.labels, l.index < s.labelCount
  exit : ∀ e, s.epilogue = some e → e.label.index < s.labelCount
  placements : ∀ p ∈ s.placements, ∀ slot, p.2 = .slot slot → s.NamedSlot slot

/-- The code, regions and resume points that were added have the outline. -/
structure Grows (ctx : Context) (s s' : Session) (o : Outline) : Prop where
  code : s'.code.toList.map Instr.unfused = s.code.toList.map Instr.unfused ++ o.code
  regions : s'.regions.toList = s.regions.toList ++ o.regions
  points : s'.resumePoints.toList = s.resumePoints.toList ++ o.points
  before : s.Before s'
  inv : ctx.Inv s'

theorem Grows.trans {o o' : Outline} (h : Grows ctx s s' o)
    (h' : Grows ctx s' s'' o') : Grows ctx s s'' (o ++ o') where
  code := by rw [h'.code, h.code, Outline.code_append, List.append_assoc]
  regions := by rw [h'.regions, h.regions, Outline.regions_append, List.append_assoc]
  points := by rw [h'.points, h.points, Outline.points_append, List.append_assoc]
  before := h.before.trans h'.before
  inv := h'.inv

/-! ### Labels of a construct -/

/-- The labels around a computation that it may jump to, with what is available at them. -/
structure Targets where
  /-- Those that can be branched to. -/
  near : List (Label × Set Cell) := []
  /-- Those outside the protected region that the computation is in; a `leave` reaches them. -/
  far : List (Label × Set Cell) := []

/-- All targets. -/
def Targets.all (T : Targets) : List (Label × Set Cell) :=
  T.near ++ T.far

/-- The labels that a construct has allocated and not yet finished with. -/
structure Locals where
  /-- Not yet mentioned. -/
  free : List Label := []
  /-- With what is available at them. -/
  typed : Targets := {}
  /-- To be placed by the computation, on the top level. -/
  due : List Label := []
  /-- To be placed by the computation, inside a block or region. -/
  hidden : List Label := []

/-- The labels that can be jumped to. -/
def Locals.labels (L : Locals) : List Label :=
  L.free ++ L.typed.all.map Prod.fst

/-- The jumps that are possible if the given labels are placed on the top level. -/
def Locals.jumps (L : Locals) (ctx : Context) (tops : List Label) : Jumps :=
  ((Jumps.ofFrames ctx.frames).withLeaves (L.typed.far.map Prod.fst)).withLabels
    (L.free ++ L.typed.near.map Prod.fst ++ tops)

/-- The labels to be placed. -/
def Locals.unplaced (L : Locals) : List Label :=
  L.due ++ L.hidden

/-- The state of a construct while a part of it is lowered that has to place nothing. -/
abbrev Locals.idle (typed : Targets) : Locals :=
  { typed }

/-- The labels are apart from each other, and those whose typing is still open also from those of
the surroundings. -/
structure Locals.Fits (L : Locals) (K : Set Cell) (ctx : Context) (s : Session) : Prop where
  bound : ∀ l, l ∈ L.labels ∨ l ∈ L.unplaced → l.index < s.labelCount
  apart : ∀ l, l ∈ L.free ∨ l ∈ L.hidden → l ∉ ctx.labels
  exit : ∀ e, s.epilogue = some e → ∀ l, l ∈ L.labels ∨ l ∈ L.unplaced → l ≠ e.label
  nodup : L.unplaced.Nodup
  free : L.free.Nodup
  typed : ∀ p ∈ L.typed.all, p.1 ∉ L.free
  near : ∀ p ∈ L.typed.near, p.1 ∈ L.due → K ⊆ p.2
  due : ∀ l ∈ L.due, l ∈ L.labels
  hidden : ∀ l ∈ L.hidden, l ∉ L.labels

/-! ### Pieces of code -/

/-- The cell that re-entry at the resume point defines. -/
def ResumePoint.cells (p : ResumePoint) : Set Cell :=
  {c | ∃ t, p.result = some t ∧ c = .temp t}

/-- Handlers and resume points can rely on what the typing promises for their labels. -/
def Outline.Certified (U : Set Cell) (Λ : Typing) : Outline → Prop
  | .nil => True
  | .item x rest => (∀ p ∈ x.points, Λ p.label ⊆ p.cells ∪ U) ∧ rest.Certified U Λ
  | .region r _ body handler rest =>
    Flow.Ok U Λ (Λ r.handlerStart) (Λ r.tryStart) body.code ∧
    body.Certified U Λ ∧ handler.Certified U Λ ∧ rest.Certified U Λ

/-- The outline names the label, in an instruction or as a resume point. -/
def Outline.Names (o : Outline) (l : Label) : Prop :=
  (∃ i ∈ o.code, l ∈ i.labels) ∨ ∃ p ∈ o.points, p.label = l

/-- The label is one of those allocated between the two sessions. -/
def Session.Allocates (s s' : Session) (l : Label) : Prop :=
  s.labelCount ≤ l.index ∧ l.index < s'.labelCount

/-- What holds of a typing no matter which labels are in use: the cells of `U` are never lost, and
the shared exit can rely on the slot of the value to return, but on nothing else. -/
structure Settled (U : Set Cell) (s : Session) (Λ : Typing) : Prop where
  all : ∀ l, U ⊆ Λ l
  exit : ∀ e, s.epilogue = some e → Λ e.label = insert (.slot e.slot) U

/-- The typing fits the labels in use: jumps to those of the open frames are possible everywhere. -/
structure TypedFor (U K : Set Cell) (ctx : Context) (typed : Targets) (s : Session) (Λ : Typing) :
    Prop extends Settled U s Λ where
  frames : ∀ l ∈ ctx.labels, Λ l ⊆ K
  typed : ∀ p ∈ typed.all, Λ p.1 = p.2

/-- What holds of the code that is added between two sessions. -/
structure Piece (U K : Set Cell) (ctx : Context) (L : Locals) (s s' : Session) (o : Outline)
    (I O : Set Cell) : Prop where
  tally : ∀ n, o.tally n ≤ 1 ∧ (o.tally n ≠ 0 → s.Allocates s' ⟨n⟩ ∨ ⟨n⟩ ∈ L.unplaced)
  due : ∀ l ∈ L.due, l ∈ o.tops
  names : ∀ l, o.Names l →
    l ∈ ctx.labels ∨ l ∈ L.labels ∨ l ∈ L.hidden ∨ s.Allocates s' l ∨
      ∃ e, s'.epilogue = some e ∧ e.label = l
  exit : ∀ e, s'.epilogue = some e →
    s.epilogue = some e ∨ (e ∈ o.exits ∧ s.Allocates s' e.label)
  legal : ∀ z, s'.Before z → o.Legal ctx.function z (L.jumps ctx o.tops)
  flow : ∀ z, s'.Before z → z.Exempts U → ∀ Λ, TypedFor U K ctx L.typed s Λ → ∃ Λ',
    (∀ l, ¬ s.Allocates s' l → l ∉ L.free → l ∉ L.hidden → Λ' l = Λ l) ∧ Settled U s' Λ' ∧
    o.Certified U Λ' ∧
    ∀ A, I ⊆ A → K ⊆ A → Flow.Ok U Λ' K A o.code ∧ O ⊆ Flow.out Λ' A o.code

/-! ### Names of labels -/

section Names

variable {U : Set Cell} {Λ Λ' : Typing} {l : Label}
variable {a b body rest : Outline}

theorem Outline.names_append : (a ++ b).Names l ↔ a.Names l ∨ b.Names l := by
  simp only [Outline.Names, code_append, points_append, List.mem_append]
  constructor
  · rintro (⟨i, hi | hi, hl⟩ | ⟨p, hp | hp, hl⟩)
    · exact .inl (.inl ⟨i, hi, hl⟩)
    · exact .inr (.inl ⟨i, hi, hl⟩)
    · exact .inl (.inr ⟨p, hp, hl⟩)
    · exact .inr (.inr ⟨p, hp, hl⟩)
  · rintro ((⟨i, hi, hl⟩ | ⟨p, hp, hl⟩) | (⟨i, hi, hl⟩ | ⟨p, hp, hl⟩))
    · exact .inl ⟨i, .inl hi, hl⟩
    · exact .inr ⟨p, .inl hp, hl⟩
    · exact .inl ⟨i, .inr hi, hl⟩
    · exact .inr ⟨p, .inr hp, hl⟩

theorem Outline.names_item {x : Item} (h : rest.Names l) :
    (Outline.item x rest).Names l := by
  rcases h with ⟨i, hi, hl⟩ | ⟨p, hp, hl⟩
  · exact .inl ⟨i, by simp [code, hi], hl⟩
  · exact .inr ⟨p, by simp [points, hp], hl⟩

theorem Outline.names_region {r : ExceptionRegion} {t : Option Temp} {handler : Outline}
    (h : body.Names l ∨ handler.Names l ∨ rest.Names l ∨ l = r.tryStart ∨ l = r.handlerStart) :
    (Outline.region r t body handler rest).Names l := by
  rcases h with (⟨i, hi, hl⟩ | ⟨p, hp, hl⟩) | (⟨i, hi, hl⟩ | ⟨p, hp, hl⟩)
    | (⟨i, hi, hl⟩ | ⟨p, hp, hl⟩) | rfl | rfl
  · exact .inl ⟨i, by simp [code, hi], hl⟩
  · exact .inr ⟨p, by simp [points, hp], hl⟩
  · exact .inl ⟨i, by simp [code, hi], hl⟩
  · exact .inr ⟨p, by simp [points, hp], hl⟩
  · exact .inl ⟨i, by simp [code, hi], hl⟩
  · exact .inr ⟨p, by simp [points, hp], hl⟩
  · exact .inl ⟨.label r.tryStart, by simp [code], by simp [Instr.labels, Instr.successors]⟩
  · exact .inl ⟨.label r.handlerStart, by simp [code], by simp [Instr.labels, Instr.successors]⟩

theorem Outline.Certified.append (ha : a.Certified U Λ) (hb : b.Certified U Λ) :
    (a ++ b).Certified U Λ := by
  induction a with
  | nil => exact hb
  | item x rest ih => exact ⟨ha.1, ih ha.2⟩
  | region r t body handler rest _ _ ih => exact ⟨ha.1, ha.2.1, ha.2.2.1, ih ha.2.2.2⟩

/-- Only the labels that an outline names matter for its certificate. -/
theorem Outline.Certified.congr {o : Outline} (ho : o.Certified U Λ)
    (h : ∀ l, o.Names l → Λ l = Λ' l) : o.Certified U Λ' := by
  induction o with
  | nil => trivial
  | item x rest ih =>
    refine ⟨fun p hp => ?_, ih ho.2 fun l hl => h l (names_item hl)⟩
    exact h p.label (.inr ⟨p, by simp [points, hp], rfl⟩) ▸ ho.1 p hp
  | region r t body handler rest ihb ihh ih =>
    obtain ⟨hok, hbody, hhandler, hrest⟩ := ho
    refine ⟨?_, ihb hbody fun l hl => h l (names_region (.inl hl)),
      ihh hhandler fun l hl => h l (names_region (.inr (.inl hl))),
      ih hrest fun l hl => h l (names_region (.inr (.inr (.inl hl))))⟩
    rw [← h r.tryStart (names_region (by simp)), ← h r.handlerStart (names_region (by simp))]
    exact hok.congr fun i hi l hl => h l (names_region (.inl (.inl ⟨i, hi, hl⟩)))

end Names

/-- What a computation can rely on. -/
structure Ready (U K : Set Cell) (ctx : Context) (L : Locals) (s : Session) : Prop where
  inv : ctx.Inv s
  fits : L.Fits K ctx s
  base : U ⊆ K
  pause : ctx.mayPause = true → K ⊆ U
  blocks : ∀ p ∈ ctx.blocks, p.2.cells ⊆ K

/-- The judgement: the code that the computation adds has an outline with the properties of a
`Piece`. -/
def Lower.Yields {α : Type} (U K : Set Cell) (ctx : Context) (L : Locals) (s : Session)
    (I : Set Cell) (m : Lower α) (O : α → Set Cell) : Prop :=
  Ready U K ctx L s → ∀ a s', m ctx s = .ok a s' →
    ∃ o, Grows ctx s s' o ∧ Piece U K ctx L s s' o I (O a)

/-- The computation yields a temp, and loses nothing. -/
abbrev Lower.YieldsTemp (U K : Set Cell) (ctx : Context) (T : Targets) (s : Session) (I : Set Cell)
    (m : Lower Temp) : Prop :=
  Yields U K ctx (.idle T) s I m fun t => insert (.temp t) I

/-- The computation loses nothing. -/
abbrev Lower.Keeps {α : Type} (U K : Set Cell) (ctx : Context) (T : Targets) (s : Session)
    (I : Set Cell) (m : Lower α) : Prop :=
  Yields U K ctx (.idle T) s I m fun _ => I

/-! ### Sequences -/

section Sequence

variable {U K : Set Cell} {ctx : Context} {F D₁ D₂ H₁ H₂ : List Label}
  {T : Targets} {s s' s'' : Session} {o₁ o₂ : Outline} {I O₁ O : Set Cell}

theorem Locals.Fits.left
    (h : Locals.Fits ⟨F, T, D₁ ++ D₂, H₁ ++ H₂⟩ K ctx s) (hD : ∀ l ∈ D₁, l ∈ T.all.map Prod.fst) :
    Locals.Fits ⟨[], T, D₁, H₁⟩ K ctx s where
  bound l hl := h.bound l (by simp_all [Locals.labels, Locals.unplaced]; tauto)
  apart l hl := h.apart l (by simp_all)
  exit e he l hl := h.exit e he l (by simp_all [Locals.labels, Locals.unplaced]; tauto)
  nodup := h.nodup.sublist
    ((List.sublist_append_left D₁ D₂).append (List.sublist_append_left H₁ H₂))
  free := List.nodup_nil
  typed _ _ := List.not_mem_nil
  near p hp hl := h.near p hp (List.mem_append_left _ hl)
  due l hl := by simpa [Locals.labels] using hD l hl
  hidden l hl hmem := h.hidden l (List.mem_append_left _ hl) (by simp_all [Locals.labels])

theorem Locals.Fits.right (h : Locals.Fits ⟨F, T, D₁ ++ D₂, H₁ ++ H₂⟩ K ctx s) (hs : s.Before s')
    (hexit : ∀ e, s'.epilogue = some e → s.epilogue = some e ∨ s.Allocates s' e.label) :
    Locals.Fits ⟨F, T, D₂, H₂⟩ K ctx s' where
  bound l hl := (h.bound l (by simp_all [Locals.labels, Locals.unplaced]; tauto)).trans_le hs.labels
  apart l hl := h.apart l (by simp_all; tauto)
  exit e he l hl := by
    have hl' : l ∈ Locals.labels ⟨F, T, D₁ ++ D₂, H₁ ++ H₂⟩ ∨
        l ∈ Locals.unplaced ⟨F, T, D₁ ++ D₂, H₁ ++ H₂⟩ := by
      simp_all [Locals.labels, Locals.unplaced]; tauto
    rcases hexit e he with he | he
    · exact h.exit e he l hl'
    · rintro rfl
      exact absurd he.1 (h.bound _ hl').not_ge
  nodup := h.nodup.sublist
    ((List.sublist_append_right D₁ D₂).append (List.sublist_append_right H₁ H₂))
  free := h.free
  typed := h.typed
  near p hp hl := h.near p hp (List.mem_append_right _ hl)
  due l hl := h.due l (List.mem_append_right _ hl)
  hidden l hl := h.hidden l (List.mem_append_right _ hl)

theorem Piece.tally_append (hfits : Locals.Fits ⟨F, T, D₁ ++ D₂, H₁ ++ H₂⟩ K ctx s)
    (hs : s.Before s') (hs' : s'.Before s'')
    (p₁ : Piece U K ctx ⟨[], T, D₁, H₁⟩ s s' o₁ I O₁)
    (p₂ : Piece U K ctx ⟨F, T, D₂, H₂⟩ s' s'' o₂ O₁ O) (n : Nat) :
    (o₁ ++ o₂).tally n ≤ 1 ∧ ((o₁ ++ o₂).tally n ≠ 0 →
      s.Allocates s'' ⟨n⟩ ∨ ⟨n⟩ ∈ Locals.unplaced ⟨F, T, D₁ ++ D₂, H₁ ++ H₂⟩) := by
  obtain ⟨hle₁, hin₁⟩ := p₁.tally n
  obtain ⟨hle₂, hin₂⟩ := p₂.tally n
  have hbound := hfits.bound ⟨n⟩
  have hnodup := hfits.nodup
  have := hs.labels
  have := hs'.labels
  rw [Outline.tally_append]
  simp only [Session.Allocates, Locals.unplaced, List.mem_append, List.nodup_append] at *
  grind

/-- A label that the first piece names is none of those whose typing the second piece chooses. -/
theorem Piece.names_settled (t : Session)
    (hfits : Locals.Fits ⟨F, T, D₁ ++ D₂, H₁ ++ H₂⟩ K ctx s)
    (hinv : ctx.Inv s) (hinv' : ctx.Inv s') (hs : s.Before s')
    (p₁ : Piece U K ctx ⟨[], T, D₁, H₁⟩ s s' o₁ I O₁) {l : Label} (hl : o₁.Names l) :
    ¬ s'.Allocates t l ∧ l ∉ F ∧ l ∉ H₂ := by
  have hbound := hfits.bound l
  have hapart := hfits.apart l
  have hnodup := hfits.nodup
  have hlabels := hs.labels
  simp only [Locals.labels, Locals.unplaced, List.mem_append, List.nodup_append] at *
  rcases p₁.names l hl with h | h | h | h | ⟨e, he, rfl⟩
  · have := hinv.frames l h
    exact ⟨fun ha => by have := ha.1; omega, fun hF => hapart (by tauto) h,
      fun hH => hapart (by tauto) h⟩
  · obtain ⟨p, hp, rfl⟩ : ∃ p ∈ T.all, p.1 = l := by simpa [Locals.labels] using h
    have hT : p.1 ∈ T.all.map Prod.fst := List.mem_map_of_mem hp
    refine ⟨fun ha => ?_, hfits.typed p hp, fun hH => ?_⟩
    · have := hbound (by tauto)
      have := ha.1
      omega
    · exact hfits.hidden p.1 (by simp [hH]) (by simp [Locals.labels, hT])
  · have hH : l ∉ Locals.labels ⟨F, T, D₁ ++ D₂, H₁ ++ H₂⟩ := hfits.hidden l (by simp [h])
    refine ⟨fun ha => ?_, fun hF => hH (by simp [Locals.labels, hF]), fun hH' => ?_⟩
    · have := hbound (by tauto)
      have := ha.1
      omega
    · exact hnodup.2.1.2.2 l h l hH' rfl
  · have := h.1
    exact ⟨fun ha => by have := ha.1; have := h.2; omega, fun hF => by have := hbound (by tauto); omega,
      fun hH => by have := hbound (by tauto); omega⟩
  · have hlt := hinv'.exit e he
    refine ⟨fun ha => by have := ha.1; omega, ?_⟩
    rcases p₁.exit e he with he | ⟨-, he⟩
    · have hne := hfits.exit e he e.label
      simp only [Locals.labels, Locals.unplaced, List.mem_append] at hne
      exact ⟨fun hF => hne (by tauto) rfl, fun hH => hne (by tauto) rfl⟩
    · have := he.1
      exact ⟨fun hF => by have := hbound (by tauto); omega,
        fun hH => by have := hbound (by tauto); omega⟩

theorem TypedFor.step {Λ Λ' : Typing} {L : Locals} (h : TypedFor U K ctx L.typed s Λ)
    (hfits : L.Fits K ctx s) (hinv : ctx.Inv s) (hset : Settled U s' Λ')
    (hagree : ∀ l, ¬ s.Allocates s' l → l ∉ L.free → l ∉ L.hidden → Λ' l = Λ l) :
    TypedFor U K ctx L.typed s' Λ' where
  toSettled := hset
  frames l hl := by
    rw [hagree l (fun ha => absurd ha.1 (hinv.frames l hl).not_ge)]
    · exact h.frames l hl
    · exact fun hf => hfits.apart l (.inl hf) hl
    · exact fun hf => hfits.apart l (.inr hf) hl
  typed p hp := by
    have hlabel : p.1 ∈ L.labels := by simp [Locals.labels]; exact .inr ⟨p.2, hp⟩
    rw [hagree p.1 (fun ha => absurd ha.1 (hfits.bound p.1 (.inl hlabel)).not_ge)]
    · exact h.typed p hp
    · exact hfits.typed p hp
    · exact fun hh => hfits.hidden p.1 hh hlabel

/-- Two pieces of code, one behind the other. -/
theorem Piece.append (hready : Ready U K ctx ⟨F, T, D₁ ++ D₂, H₁ ++ H₂⟩ s)
    (hD : ∀ l ∈ D₁, l ∈ T.all.map Prod.fst) (g₁ : Grows ctx s s' o₁) (g₂ : Grows ctx s' s'' o₂)
    (p₁ : Piece U K ctx ⟨[], T, D₁, H₁⟩ s s' o₁ I O₁)
    (p₂ : Piece U K ctx ⟨F, T, D₂, H₂⟩ s' s'' o₂ O₁ O) :
    Piece U K ctx ⟨F, T, D₁ ++ D₂, H₁ ++ H₂⟩ s s'' (o₁ ++ o₂) I O where
  tally := tally_append hready.fits g₁.before g₂.before p₁ p₂
  due l hl := by
    rw [Outline.tops_append, List.mem_append]
    exact (List.mem_append.1 hl).imp (p₁.due l) (p₂.due l)
  names l hl := by
    have h₁ := g₁.before.labels
    have h₂ := g₂.before.labels
    rcases Outline.names_append.1 hl with hl | hl
    · rcases p₁.names l hl with h | h | h | h | ⟨e, he, rfl⟩
      · exact .inl h
      · exact .inr (.inl (by simp_all [Locals.labels]))
      · exact .inr (.inr (.inl (List.mem_append_left _ h)))
      · exact .inr (.inr (.inr (.inl ⟨h.1, h.2.trans_le h₂⟩)))
      · exact .inr (.inr (.inr (.inr ⟨e, g₂.before.epilogue e he, rfl⟩)))
    · rcases p₂.names l hl with h | h | h | h | h
      · exact .inl h
      · exact .inr (.inl h)
      · exact .inr (.inr (.inl (List.mem_append_right _ h)))
      · exact .inr (.inr (.inr (.inl ⟨h₁.trans h.1, h.2⟩)))
      · exact .inr (.inr (.inr (.inr h)))
  exit e he := by
    have h₁ := g₁.before.labels
    have h₂ := g₂.before.labels
    rw [Outline.exits_append, List.mem_append]
    rcases p₂.exit e he with he | ⟨he, ha⟩
    · rcases p₁.exit e he with he | ⟨he, ha⟩
      · exact .inl he
      · exact .inr ⟨.inl he, ha.1, ha.2.trans_le h₂⟩
    · exact .inr ⟨.inr he, h₁.trans ha.1, ha.2⟩
  legal z hz := by
    refine Outline.Legal.append ((p₁.legal z (g₂.before.trans hz)).mono ?_)
      ((p₂.legal z hz).mono ?_)
    · refine (Jumps.Le.refl _).withLabels fun l hl => .inr ?_
      simp only [Outline.tops_append, List.mem_append] at hl ⊢
      tauto
    · refine (Jumps.Le.refl _).withLabels fun l hl => .inr ?_
      simp only [Outline.tops_append, List.mem_append] at hl ⊢
      tauto
  flow z hz hzU Λ hΛ := by
    have hfits₁ := hready.fits.left hD
    obtain ⟨Λ₁, hagree₁, hset₁, hcert₁, hok₁⟩ := p₁.flow z (g₂.before.trans hz) hzU Λ hΛ
    have hΛ₁ : TypedFor U K ctx T s' Λ₁ :=
      TypedFor.step (L := ⟨[], T, D₁, H₁⟩) hΛ hfits₁ hready.inv hset₁ hagree₁
    obtain ⟨Λ₂, hagree₂, hset₂, hcert₂, hok₂⟩ := p₂.flow z hz hzU Λ₁ hΛ₁
    -- the second piece leaves the labels alone that the first one names
    have hkeep : ∀ l, o₁.Names l → Λ₁ l = Λ₂ l := by
      intro l hl
      obtain ⟨ha, hF, hH⟩ := p₁.names_settled s'' hready.fits hready.inv g₁.inv g₁.before hl
      exact (hagree₂ l ha hF hH).symm
    refine ⟨Λ₂, ?_, hset₂, (hcert₁.congr hkeep).append hcert₂, fun A hI hK => ?_⟩
    · intro l ha hF hH
      have h₁ := g₁.before.labels
      have h₂ := g₂.before.labels
      rw [hagree₂ l (fun h => ha ⟨h₁.trans h.1, h.2⟩) hF (fun h => hH (List.mem_append_right _ h)),
        hagree₁ l (fun h => ha ⟨h.1, h.2.trans_le h₂⟩) List.not_mem_nil
          (fun h => hH (List.mem_append_left _ h))]
    · obtain ⟨hok, hO⟩ := hok₁ A hI hK
      have hcode : ∀ i ∈ o₁.code, ∀ l ∈ i.labels, Λ₁ l = Λ₂ l :=
        fun i hi l hl => hkeep l (.inl ⟨i, hi, hl⟩)
      have hok' := hok.congr hcode
      have hO' : O₁ ⊆ Flow.out Λ₂ A o₁.code := Flow.out_congr hcode ▸ hO
      obtain ⟨hok₂, hO₂⟩ := hok₂ _ hO' hok'.floor_le_out
      rw [Outline.code_append, Flow.out_append]
      exact ⟨hok'.append hok₂, hO₂⟩

end Sequence

/-! ### Rules -/

theorem Context.Inv.mono (h : ctx.Inv s) (hs : s.Before s')
    (hexit : s'.epilogue = s.epilogue) (hplace : s'.placements = s.placements) : ctx.Inv s' where
  frames l hl := (h.frames l hl).trans_le hs.labels
  exit e he := (h.exit e (hexit ▸ he)).trans_le hs.labels
  placements p hp slot hslot := (h.placements p (hplace ▸ hp) slot hslot).mono hs

namespace Lower

variable {ctx : Context} {s s' : Session} {α β : Type}

/-- A sequence of two steps that succeeds: both of them do. -/
theorem bind_ok {m : Lower α} {f : α → Lower β} {s'' : Session}
    {b : β} (h : (m >>= f) ctx s = .ok b s'') :
    ∃ a s', m ctx s = .ok a s' ∧ f a ctx s' = .ok b s'' := by
  simp only [bind, ReaderT.bind, EStateM.bind] at h
  split at h
  · exact ⟨_, _, ‹_›, h⟩
  · cases h

theorem bind_run {m : Lower α} {f : α → Lower β}
    {a : α} (h : m ctx s = .ok a s') : (m >>= f) ctx s = f a ctx s' := by
  simp only [bind, ReaderT.bind, EStateM.bind, h]

theorem read_ok {f : Context → Lower β} {b : β}
    (h : (read >>= f) ctx s = .ok b s') : f ctx ctx s = .ok b s' :=
  h

theorem get_run {f : Session → Lower β} :
    (get >>= f) ctx s = f s ctx s :=
  rfl

theorem get_ok {f : Session → Lower β} {b : β}
    (h : (get >>= f) ctx s = .ok b s') : f s ctx s = .ok b s' :=
  h

theorem require_ok {o : Option α} {a : α}
    (h : require o ctx s = .ok a s') : o = some a ∧ s' = s := by
  cases o with
  | none => cases h
  | some a' =>
    cases h
    exact ⟨rfl, rfl⟩

/-- A sequence that starts with a look-up and succeeds. -/
theorem require_bind_ok {o : Option α} {f : α → Lower β}
    {b : β} (h : (require o >>= f) ctx s = .ok b s') : ∃ a, o = some a ∧ f a ctx s = .ok b s' := by
  obtain ⟨a, s₁, hfound, hrest⟩ := bind_ok h
  obtain ⟨rfl, rfl⟩ := require_ok hfound
  exact ⟨a, rfl, hrest⟩

namespace Yields

variable {U K : Set Cell} {ctx : Context} {L : Locals} {F D D₂ H H₂ : List Label}
  {T : Targets} {s : Session} {I : Set Cell} {α β : Type} {m : Lower α}
  {f : α → Lower β} {O₁ : α → Set Cell} {O : β → Set Cell}

/-- Two steps, each of which places some of the labels. -/
theorem seq (D₁ H₁ : List Label) (hD : ∀ l ∈ D₁, l ∈ T.all.map Prod.fst)
    (hm : Yields U K ctx ⟨[], T, D₁, H₁⟩ s I m O₁)
    (hf : ∀ a s', m ctx s = .ok a s' → s.Before s' →
      Yields U K ctx ⟨F, T, D₂, H₂⟩ s' (O₁ a) (f a) O) :
    Yields U K ctx ⟨F, T, D₁ ++ D₂, H₁ ++ H₂⟩ s I (m >>= f) O := by
  intro hready b s'' h
  obtain ⟨a, s', h₁, h₂⟩ := bind_ok h
  obtain ⟨o₁, g₁, p₁⟩ := hm
    { hready with fits := hready.fits.left hD } a s' h₁
  have hfits := hready.fits.right g₁.before fun e he => (p₁.exit e he).imp_right And.right
  obtain ⟨o₂, g₂, p₂⟩ := hf a s' h₁ g₁.before
    { hready with inv := g₁.inv, fits := hfits } b s'' h₂
  exact ⟨o₁ ++ o₂, g₁.trans g₂, p₁.append hready hD g₁ g₂ p₂⟩

/-- Two steps, the first of which places none of the labels. -/
theorem bind (hm : Yields U K ctx (.idle T) s I m O₁)
    (hf : ∀ a {s'} {_ : m ctx s = .ok a s'} {_ : s.Before s'},
      Yields U K ctx ⟨F, T, D, H⟩ s' (O₁ a) (f a) O) :
    Yields U K ctx ⟨F, T, D, H⟩ s I (m >>= f) O :=
  seq [] [] (by simp) hm @hf

/-- Code may leave behind more than is asked for. -/
theorem weaken {O' : α → Set Cell} (h : Yields U K ctx L s I m O₁)
    (hO : ∀ a, O' a ⊆ O₁ a) : Yields U K ctx L s I m O' := by
  intro hready a s' hrun
  obtain ⟨o, g, p⟩ := h hready a s' hrun
  refine ⟨o, g, { p with flow := fun z hz hzU Λ hΛ => ?_ }⟩
  obtain ⟨Λ', hagree, hset, hcert, hok⟩ := p.flow z hz hzU Λ hΛ
  refine ⟨Λ', hagree, hset, hcert, fun A hA hK => ?_⟩
  obtain ⟨h₁, h₂⟩ := hok A hA hK
  exact ⟨h₁, (hO a).trans h₂⟩

/-- Code may be given more cells than it needs. -/
theorem supply {I' : Set Cell} (h : Yields U K ctx L s I m O₁) (hI : I ⊆ I') :
    Yields U K ctx L s I' m O₁ := by
  intro hready a s' hrun
  obtain ⟨o, g, p⟩ := h hready a s' hrun
  refine ⟨o, g, { p with flow := fun z hz hzU Λ hΛ => ?_ }⟩
  obtain ⟨Λ', hagree, hset, hcert, hok⟩ := p.flow z hz hzU Λ hΛ
  exact ⟨Λ', hagree, hset, hcert, fun A hA => hok A (hI.trans hA)⟩

/-- What a computation can rely on may be used to prove it right. -/
theorem intro (h : Ready U K ctx L s → Yields U K ctx L s I m O₁) : Yields U K ctx L s I m O₁ :=
  fun hready => h hready hready

/-- A computation that never succeeds. -/
theorem of_fails (h : ∀ a s', m ctx s ≠ .ok a s') : Yields U K ctx L s I m O₁ :=
  fun _ a s' hrun => (h a s' hrun).elim

/-- The typing of a label is fixed before the label is first used. -/
theorem assign (F₁ : List Label) (l : Label) (F₂ : List Label) (X : Set Cell)
    (hX : K ⊆ X)
    (h : Yields U K ctx ⟨F₁ ++ F₂, { T with near := (l, X) :: T.near }, D, H⟩ s I m O₁) :
    Yields U K ctx ⟨F₁ ++ l :: F₂, T, D, H⟩ s I m O₁ := by
  intro hready a s' hrun
  have hfits := hready.fits
  have hlabels : ∀ l', l' ∈ Locals.labels ⟨F₁ ++ F₂, { T with near := (l, X) :: T.near }, D, H⟩ ↔
      l' ∈ Locals.labels ⟨F₁ ++ l :: F₂, T, D, H⟩ := by
    intro l'
    simp only [Locals.labels, Targets.all, List.map_append, List.map_cons, List.mem_append,
      List.mem_cons]
    tauto
  have hfree : l ∉ F₁ ++ F₂ ∧ (F₁ ++ F₂).Nodup := by
    have := hfits.free
    rwa [List.nodup_middle, List.nodup_cons] at this
  have hl : l ∈ Locals.labels ⟨F₁ ++ l :: F₂, T, D, H⟩ := by simp [Locals.labels]
  obtain ⟨o, g, p⟩ := h
    { hready with
      fits :=
        { bound := fun l' hl' => hfits.bound l' (hl'.imp_left (hlabels l').1)
          apart := fun l' hl' => hfits.apart l' (hl'.imp_left fun h => by simp at h ⊢; tauto)
          exit := fun e he l' hl' => hfits.exit e he l' (hl'.imp_left (hlabels l').1)
          nodup := hfits.nodup
          free := hfree.2
          typed := by
            intro q hq
            rcases List.mem_cons.1 hq with rfl | hq
            · exact hfree.1
            · exact fun hmem => hfits.typed q hq (by simp at hmem ⊢; tauto)
          near := by
            intro q hq hdue
            rcases List.mem_cons.1 hq with rfl | hq
            · exact hX
            · exact hfits.near q hq hdue
          due := fun l' hl' => (hlabels l').2 (hfits.due l' hl')
          hidden := fun l' hl' hmem => hfits.hidden l' hl' ((hlabels l').1 hmem) } } a s' hrun
  refine ⟨o, g,
    { tally := p.tally
      due := p.due
      names := fun l' hl' => (p.names l' hl').imp_right (Or.imp_left (hlabels l').1)
      exit := p.exit
      legal := fun z hz => (p.legal z hz).mono ?_
      flow := fun z hz hzU Λ hΛ => ?_ }⟩
  · refine (Jumps.Le.refl _).withLabels fun l' hl' => .inr ?_
    simp only [List.map_cons, List.mem_append, List.mem_cons] at hl' ⊢
    tauto
  · -- the typing of the label is still free, so it can be chosen here
    have hΛ₀ : TypedFor U K ctx { T with near := (l, X) :: T.near } s (Function.update Λ l X) := by
      refine ⟨⟨fun l' => ?_, fun e he => ?_⟩, fun l' hl' => ?_, fun q hq => ?_⟩
      · rcases eq_or_ne l' l with rfl | hne
        · simpa using hready.base.trans hX
        · simpa [hne] using hΛ.all l'
      · have hne : e.label ≠ l := fun heq => hfits.exit e he l (.inl hl) heq.symm
        simpa [hne] using hΛ.exit e he
      · have hne : l' ≠ l := fun heq => hfits.apart l (.inl (by simp)) (heq ▸ hl')
        simpa [hne] using hΛ.frames l' hl'
      · rcases List.mem_cons.1 hq with rfl | hq
        · simp
        · have hne : q.1 ≠ l := fun heq => hfits.typed q hq (by simp [heq])
          simpa [hne] using hΛ.typed q hq
    obtain ⟨Λ', hagree, hset, hcert, hok⟩ := p.flow z hz hzU _ hΛ₀
    refine ⟨Λ', fun l' ha hF hH => ?_, hset, hcert, hok⟩
    have hne : l' ≠ l := fun heq => hF (by simp [heq])
    rw [hagree l' ha (fun hmem => hF (by simp at hmem ⊢; tauto)) hH, Function.update_of_ne hne]

end Yields

end Lower

end ScriptLowering
