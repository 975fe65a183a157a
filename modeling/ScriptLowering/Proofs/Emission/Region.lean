import ScriptLowering.Proofs.Emission.Expression

/-!
# Protected regions

A protected region becomes a region of the outline. Its three labels, and those that its parts
place, are seen by nobody outside. What the handler can rely on is the floor of the protected range,
since an exception can arise at each of its points; nothing is reached behind the handler, which is
always left by a jump.
-/

namespace ScriptLowering

variable {ps : List (Label × Set Cell)} {c : List Instr} {Λ : Typing}

/-! ### Code that ends by leaving -/

theorem EndsByLeaving.append (h : EndsByLeaving c) (d : List Instr) :
    EndsByLeaving (d ++ c) := by
  obtain ⟨before, i, after, rfl, hi, hafter⟩ := h
  exact ⟨d ++ before, i, after, by simp, hi, hafter⟩

theorem EndsByLeaving.label (h : EndsByLeaving c) (l : Label) :
    EndsByLeaving (c ++ [.label l]) := by
  obtain ⟨before, i, after, rfl, hi, hafter⟩ := h
  refine ⟨before, i, after ++ [.label l], by simp, hi, fun j hj => ?_⟩
  rcases List.mem_append.1 hj with hj | hj
  · exact hafter j hj
  · exact ⟨l, List.mem_singleton.1 hj⟩

theorem endsByLeaving_endFinally (c : List Instr) : EndsByLeaving (c ++ [.endFinally]) :=
  ⟨c, .endFinally, [], rfl, .inl rfl, by simp⟩

/-! ### Typings with given values -/

/-- The typing with the given values. -/
def retype (ps : List (Label × Set Cell)) (Λ : Typing) : Typing :=
  ps.foldr (fun p Λ => Function.update Λ p.1 p.2) Λ

theorem retype_of_notMem {l : Label}
    (h : l ∉ ps.map Prod.fst) : retype ps Λ l = Λ l := by
  induction ps with
  | nil => rfl
  | cons p ps ih =>
    rw [List.map_cons, List.mem_cons, not_or] at h
    rw [retype, List.foldr_cons, Function.update_of_ne h.1]
    exact ih h.2

theorem retype_of_mem (hnodup : (ps.map Prod.fst).Nodup)
    {p : Label × Set Cell} (h : p ∈ ps) : retype ps Λ p.1 = p.2 := by
  induction ps with
  | nil => cases h
  | cons q ps ih =>
    rw [List.map_cons, List.nodup_cons] at hnodup
    rcases List.mem_cons.1 h with rfl | h
    · exact Function.update_self ..
    · have hne : p.1 ≠ q.1 := fun heq => hnodup.1 (heq ▸ List.mem_map_of_mem h)
      rw [retype, List.foldr_cons, Function.update_of_ne hne]
      exact ih hnodup.2 h

/-! ### The parts of a region -/

/-- The surroundings inside further frames. -/
def Context.inside (ctx : Context) (frames : List Frame) : Context :=
  { ctx with frames := frames ++ ctx.frames }

/-- What a handler can rely on: the floor of the protected range, and the exception. -/
def handlerInput (K : Set Cell) : Option Temp → Set Cell
  | some exception => insert (.temp exception) K
  | none => K

/-- The frame in which a handler is lowered. -/
def handlerFrame : RegionKind → Frame
  | .catchHandler => .guarded
  | .finallyHandler => .finallyHandler

section Region

variable {U K K₁ K₂ I O₁ O₂ : Set Cell} {ctx : Context} {T : Targets}
  {N far : List (Label × Set Cell)} {H F D₁ D₂ : List Label} {inner : List Frame}
  {r : ExceptionRegion} {exception : Option Temp} {s s₁ s₂ s₃ s₄ s₅ : Session} {ob oh : Outline}
variable {l : Label} {frames : List Frame} {L : Locals} {kind : RegionKind} {Λ : Typing}

/-- The hidden labels of a construct are the three of the region and those that its parts place.
Some of those in the range are typed from the start. -/
structure Shares (r : ExceptionRegion) (N : List (Label × Set Cell)) (F D₁ D₂ H : List Label) :
    Prop where
  all : H.Perm (r.tryStart :: r.handlerStart :: r.handlerEnd :: (D₁ ++ D₂))
  range : D₁.Perm (F ++ N.map Prod.fst)

/-- What is known about a region and its parts. -/
structure RegionParts (K K₁ K₂ I : Set Cell) (T : Targets)
    (N far : List (Label × Set Cell)) (H F D₁ D₂ : List Label) (inner : List Frame)
    (r : ExceptionRegion) : Prop where
  shares : Shares r N F D₁ D₂ H
  floor : K ⊆ K₁
  floor' : K ⊆ K₂
  input : K₁ ⊆ I
  range : r.tryEnd = r.handlerStart
  guard : ∀ f ∈ inner, f.isRegion = false
  typed : ∀ p ∈ N, K₁ ⊆ p.2
  targets : ∀ l ∈ inner.flatMap Frame.labels, ∃ X, (l, X) ∈ N ++ T.all ∧ X ⊆ K₁
  leaves : ∀ p ∈ far, p ∈ T.all
  stays : r.kind = .finallyHandler → far = []

/-- The sessions in which a region is lowered: its three labels are placed behind the first, the
third and the fifth. -/
structure Stages (s s₁ s₂ s₃ s₄ s₅ : Session) : Prop where
  start : Lower.Yields.Calm s s₁
  range : s₁.Before s₂
  between : Lower.Yields.Calm s₂ s₃
  handler : s₃.Before s₄
  before : s₄.Before s₅
  labels : s₅.labelCount = s₄.labelCount
  epilogue : s₅.epilogue = s₄.epilogue

section

variable (h : Stages s s₁ s₂ s₃ s₄ s₅)

include h

theorem Stages.counts : s₁.labelCount = s.labelCount ∧ s₁.labelCount ≤ s₂.labelCount ∧
    s₃.labelCount = s₂.labelCount ∧ s₃.labelCount ≤ s₄.labelCount ∧ s₅.labelCount = s₄.labelCount :=
  ⟨h.start.labels, h.range.labels, h.between.labels, h.handler.labels, h.labels⟩

/-- The labels of the parts are allocated by the construct. -/
theorem Stages.allocates (hl : s₁.Allocates s₂ l ∨ s₃.Allocates s₄ l) : s.Allocates s₅ l := by
  have hcounts := h.counts
  unfold Session.Allocates at *
  omega

/-- The parts allocate no label from before the region. -/
theorem Stages.old (hl : l.index < s.labelCount) : ¬ s₁.Allocates s₂ l ∧ ¬ s₃.Allocates s₄ l := by
  have hcounts := h.counts
  unfold Session.Allocates
  omega

/-- What is there behind the range is not allocated by the handler. -/
theorem Stages.apart (hl : l.index < s₂.labelCount) : ¬ s₃.Allocates s₄ l := fun ha =>
  absurd (h.between.labels ▸ ha.1) hl.not_ge

end

/-- The frames of a handler direct no jumps. -/
theorem labels_inside_handler :
    (ctx.inside [handlerFrame kind]).labels = ctx.labels := by
  cases kind <;> rfl

theorem mem_labels_inside : l ∈ (ctx.inside (.guarded :: inner)).labels ↔
    l ∈ inner.flatMap Frame.labels ∨ l ∈ ctx.labels := by
  simp [Context.inside, Context.labels, Frame.labels]

variable (hr : RegionParts K K₁ K₂ I T N far H F D₁ D₂ inner r)
  (hready : Ready U K ctx ⟨[], T, [], H⟩ s)
  (hs : Stages s s₁ s₂ s₃ s₄ s₅)
  (pb : Piece U K₁ (ctx.inside (.guarded :: inner)) ⟨F, ⟨N, T.all⟩, D₁, []⟩ s₁ s₂ ob I O₁)
  (ph : Piece U K₂ (ctx.inside [handlerFrame r.kind]) ⟨D₂, ⟨[], far⟩, D₂, []⟩ s₃ s₄ oh
    (handlerInput K₁ exception) O₂)

section

include hready

theorem nodup_hidden : H.Nodup := by
  simpa [Locals.unplaced] using hready.fits.nodup

theorem bound_hidden (hl : l ∈ H) : l.index < s.labelCount :=
  hready.fits.bound l (.inr (by simpa [Locals.unplaced] using hl))

theorem bound_target (hl : l ∈ T.all.map Prod.fst) : l.index < s.labelCount :=
  hready.fits.bound l (.inl (by simpa [Locals.labels] using hl))

/-- A label of the construct, of the surroundings or of the shared exit is none of the hidden
ones. -/
theorem not_mem_hidden
    (hl : l ∈ ctx.labels ∨ l ∈ T.all.map Prod.fst ∨ ∃ e, s.epilogue = some e ∧ e.label = l) :
    l ∉ H := by
  intro hH
  rcases hl with hl | hl | ⟨e, he, rfl⟩
  · exact hready.fits.apart l (.inr hH) hl
  · exact hready.fits.hidden l hH (by simpa [Locals.labels] using hl)
  · exact hready.fits.exit e he e.label (.inr (by simpa [Locals.unplaced] using hH)) rfl

end

section

include hr

theorem mem_hidden : l ∈ H ↔ l = r.tryStart ∨ l = r.handlerStart ∨ l = r.handlerEnd ∨
    (l ∈ F ∨ l ∈ N.map Prod.fst) ∨ l ∈ D₂ := by
  rw [hr.shares.all.mem_iff]
  simp only [List.mem_cons, List.mem_append, hr.shares.range.mem_iff]

include hready in
/-- The labels of the region and those that its parts place are apart. -/
theorem nodup_parts :
    (r.tryStart :: r.handlerStart :: r.handlerEnd :: (F ++ N.map Prod.fst ++ D₂)).Nodup :=
  (hr.shares.all.trans (.cons _ (.cons _ (.cons _ (hr.shares.range.append_right _))))).nodup_iff.1
    (nodup_hidden hready)

/-- The labels to which the frames around the range direct jumps. -/
theorem labels_range (hl : l ∈ (ctx.inside (.guarded :: inner)).labels) :
    l ∈ N.map Prod.fst ∨ l ∈ T.all.map Prod.fst ∨ l ∈ ctx.labels := by
  rcases mem_labels_inside.1 hl with hl | hl
  · obtain ⟨X, hX, -⟩ := hr.targets l hl
    exact (List.mem_append.1 hX).imp List.mem_map_of_mem fun h => .inl (List.mem_map_of_mem h)
  · exact .inr (.inr hl)

end

include hr hready hs pb ph in
theorem Piece.tally_region (n : Nat) :
    (Outline.region r exception ob oh .nil).tally n ≤ 1 ∧
      ((Outline.region r exception ob oh .nil).tally n ≠ 0 →
        s.Allocates s₅ ⟨n⟩ ∨ ⟨n⟩ ∈ Locals.unplaced ⟨[], T, [], H⟩) := by
  obtain ⟨hle, hin⟩ := pb.tally n
  obtain ⟨hle', hin'⟩ := ph.tally n
  have hcounts := hs.counts
  have hnodup := hr.shares.all.nodup_iff.1 (nodup_hidden hready)
  have hbound : ∀ l ∈ H, l.index < s.labelCount := fun _ => bound_hidden hready
  have hmem : ∀ l, l ∈ H ↔
      l = r.tryStart ∨ l = r.handlerStart ∨ l = r.handlerEnd ∨ l ∈ D₁ ∨ l ∈ D₂ := by
    intro l
    rw [hr.shares.all.mem_iff]
    simp
  have heq : ∀ l : Label, l.index = n ↔ l = ⟨n⟩ := fun l => by cases l; simp
  simp only [Outline.tally, Session.Allocates, Locals.unplaced, List.append_nil, List.nil_append,
    List.nodup_cons, List.mem_cons, List.mem_append, List.nodup_append, heq, hmem] at *
  grind

theorem Outline.names_of_region (h : (Outline.region r exception ob oh .nil).Names l) :
    l = r.tryStart ∨ l = r.handlerStart ∨ l = r.handlerEnd ∨ ob.Names l ∨ oh.Names l := by
  rcases h with ⟨i, hi, hl⟩ | ⟨p, hp, hl⟩
  · simp only [code, List.mem_append, List.mem_cons, List.not_mem_nil, or_false] at hi
    rcases hi with ((rfl | hi) | (rfl | ((hi | hi) | hi))) | rfl
    · exact .inl (by simpa [Instr.labels, Instr.successors] using hl)
    · exact .inr (.inr (.inr (.inl (.inl ⟨i, hi, hl⟩))))
    · exact .inr (.inl (by simpa [Instr.labels, Instr.successors] using hl))
    · cases exception with
      | none => simp [handlerOpening] at hi
      | some t =>
        obtain rfl : i = .define t .loadException := by simpa [handlerOpening] using hi
        simp [Instr.labels, Instr.successors] at hl
    · exact .inr (.inr (.inr (.inr (.inl ⟨i, hi, hl⟩))))
    · cases exception with
      | none =>
        obtain rfl : i = .endFinally := by simpa [handlerClosing] using hi
        simp [Instr.labels, Instr.successors] at hl
      | some t => simp [handlerClosing] at hi
    · exact .inr (.inr (.inl (by simpa [Instr.labels, Instr.successors] using hl)))
  · simp only [points, List.mem_append, List.not_mem_nil, or_false] at hp
    rcases hp with hp | hp
    · exact .inr (.inr (.inr (.inl (.inr ⟨p, hp, hl⟩))))
    · exact .inr (.inr (.inr (.inr (.inr ⟨p, hp, hl⟩))))

include hr pb in
/-- The labels that the protected range names. -/
theorem Piece.names_range (hl : ob.Names l) :
    (l ∈ F ∨ l ∈ N.map Prod.fst) ∨ l ∈ T.all.map Prod.fst ∨ l ∈ ctx.labels ∨
      s₁.Allocates s₂ l ∨ ∃ e, s₂.epilogue = some e ∧ e.label = l := by
  rcases pb.names l hl with h | h | h | h
  · exact (labels_range hr h).imp .inr fun h => h.imp_right .inl
  · simp only [Locals.labels, Targets.all, List.map_append, List.mem_append] at h ⊢
    tauto
  · cases h
  · exact .inr (.inr (.inr h))

include hr hs pb ph in
theorem Piece.names_region
    (hl : (Outline.region r exception ob oh .nil).Names l) :
    l ∈ ctx.labels ∨ l ∈ Locals.labels ⟨[], T, [], H⟩ ∨ l ∈ H ∨ s.Allocates s₅ l ∨
      ∃ e, s₅.epilogue = some e ∧ e.label = l := by
  have htarget : l ∈ T.all.map Prod.fst → l ∈ Locals.labels ⟨[], T, [], H⟩ := fun h => by
    simpa [Locals.labels] using h
  rw [mem_hidden hr]
  rcases Outline.names_of_region hl with h | h | h | h | h
  · exact .inr (.inr (.inl (.inl h)))
  · exact .inr (.inr (.inl (.inr (.inl h))))
  · exact .inr (.inr (.inl (.inr (.inr (.inl h)))))
  · rcases pb.names_range hr h with h | h | h | h | ⟨e, he, rfl⟩
    · exact .inr (.inr (.inl (.inr (.inr (.inr (.inl h))))))
    · exact .inr (.inl (htarget h))
    · exact .inl h
    · exact .inr (.inr (.inr (.inl (hs.allocates (.inl h)))))
    · have he' := hs.handler.epilogue e (hs.between.before.epilogue e he)
      exact .inr (.inr (.inr (.inr ⟨e, hs.before.epilogue e he', rfl⟩)))
  · rcases ph.names l h with h | h | h | h | ⟨e, he, rfl⟩
    · exact .inl (labels_inside_handler ▸ h)
    · simp only [Locals.labels, Targets.all, List.nil_append, List.mem_append] at h
      rcases h with h | h
      · exact .inr (.inr (.inl (.inr (.inr (.inr (.inr h))))))
      · obtain ⟨p, hp, rfl⟩ := List.mem_map.1 h
        exact .inr (.inl (htarget (List.mem_map_of_mem (hr.leaves p hp))))
    · cases h
    · exact .inr (.inr (.inr (.inl (hs.allocates (.inr h)))))
    · exact .inr (.inr (.inr (.inr ⟨e, hs.before.epilogue e he, rfl⟩)))

/-- Frames that protect nothing only add labels. -/
theorem ofFrames_append (fs outer : List Frame)
    (hfs : ∀ f ∈ fs, f.isNative = false) :
    (Jumps.ofFrames (fs ++ outer)).branch
        ⊆ (Jumps.ofFrames outer).branch ∪ {l | l ∈ fs.flatMap Frame.labels} ∧
      (Jumps.ofFrames (fs ++ outer)).leave = (Jumps.ofFrames outer).leave ∧
      (Jumps.ofFrames (fs ++ outer)).mayExit = (Jumps.ofFrames outer).mayExit := by
  induction fs with
  | nil => exact ⟨Set.subset_union_left, rfl, rfl⟩
  | cons f fs ih =>
    obtain ⟨hbranch, hleave, hexit⟩ := ih fun g hg => hfs g (.tail _ hg)
    have henter : Jumps.ofFrames (f :: (fs ++ outer))
        = (Jumps.ofFrames (fs ++ outer)).withLabels f.labels := by
      have hf := hfs f (List.mem_cons_self ..)
      cases f <;> first | rfl | simp [Frame.isNative] at hf
    rw [List.cons_append, henter]
    refine ⟨?_, hleave, hexit⟩
    rintro l (hl | hl)
    · exact (hbranch hl).imp_right fun h => List.mem_append_right _ h
    · exact .inr (List.mem_append_left _ hl)

include hr in
/-- The jumps that are possible in the protected range. -/
theorem jumps_range (hdue : ∀ l ∈ D₁, l ∈ ob.tops) :
    (Locals.jumps ⟨F, ⟨N, T.all⟩, D₁, []⟩ (ctx.inside (.guarded :: inner)) ob.tops).Le
      ((Locals.jumps ⟨[], T, [], H⟩ ctx []).guarded.withLabels ob.tops) := by
  have hplaced : ∀ l, l ∈ F ∨ l ∈ N.map Prod.fst → l ∈ ob.tops := fun l hl =>
    hdue l (hr.shares.range.mem_iff.2 (List.mem_append.2 hl))
  have hguard : ∀ f ∈ inner, f.isNative = false := by
    intro f hf
    have hf := hr.guard f hf
    cases f <;> first | rfl | simp [Frame.isRegion] at hf
  obtain ⟨hbranch, hleave, hexit⟩ := ofFrames_append inner ctx.frames hguard
  have hfar : ∀ p ∈ T.all, p.1 ∈ (Locals.jumps ⟨[], T, [], H⟩ ctx []).guarded.leave := by
    intro p hp
    rcases List.mem_append.1 hp with hp | hp
    · exact .inr (.inr (by simpa using ⟨p.2, hp⟩))
    · exact .inl (.inr (by simpa using ⟨p.2, hp⟩))
  refine ⟨?_, ?_, rfl, hexit.symm⟩
  · rintro l (hl | hl)
    · cases hl
    · simp only [Set.mem_ofPred_eq, List.mem_append] at hl
      rcases hl with hl | hl
      · exact .inr (hplaced l hl)
      · exact .inr hl
  · rintro l ((hl | hl) | hl)
    · exact .inl (.inl (.inl (hleave ▸ hl)))
    · rcases hbranch hl with hl | hl
      · exact .inl (.inr (.inl hl))
      · obtain ⟨X, hX, -⟩ := hr.targets l hl
        rcases List.mem_append.1 hX with hX | hX
        · exact .inr (.inr (hplaced l (.inr (List.mem_map_of_mem hX))))
        · exact .inl (hfar _ hX)
    · obtain ⟨p, hp, rfl⟩ := List.mem_map.1 hl
      exact .inl (hfar p hp)

include hr in
/-- The jumps that are possible in a handler. -/
theorem jumps_handler (hkind : r.kind = .catchHandler ↔ exception.isSome) (hdue : ∀ l ∈ D₂, l ∈ oh.tops) :
    (Locals.jumps ⟨D₂, ⟨[], far⟩, D₂, []⟩ (ctx.inside [handlerFrame r.kind]) oh.tops).Le
      (((Locals.jumps ⟨[], T, [], H⟩ ctx []).handler exception).withLabels oh.tops) := by
  have hbranch : ∀ l, l ∈ D₂ ++ (([] : List (Label × Set Cell)).map Prod.fst) ++ oh.tops →
      l ∈ oh.tops := by
    intro l hl
    simp only [List.map_nil, List.append_nil, List.mem_append] at hl
    exact hl.elim (hdue l) id
  cases hk : r.kind with
  | catchHandler =>
    rw [Jumps.handler, if_pos (hkind.1 hk)]
    refine ⟨?_, ?_, rfl, rfl⟩
    · rintro l (hl | hl)
      · cases hl
      · exact .inr (hbranch l hl)
    · rintro l ((hl | hl) | hl)
      · exact .inl (.inl (.inl hl))
      · exact .inl (.inr (.inl hl))
      · obtain ⟨p, hp, rfl⟩ := List.mem_map.1 hl
        rcases List.mem_append.1 (hr.leaves p hp) with hp | hp
        · exact .inl (.inr (.inr (by simpa using ⟨p.2, hp⟩)))
        · exact .inl (.inl (.inr (by simpa using ⟨p.2, hp⟩)))
  | finallyHandler =>
    have hnone : exception.isSome = false := by
      cases h : exception.isSome
      · rfl
      · rw [hkind.2 h] at hk
        cases hk
    rw [Jumps.handler, hnone, if_neg Bool.false_ne_true, hr.stays hk]
    refine ⟨?_, ?_, rfl, rfl⟩
    · rintro l (hl | hl)
      · cases hl
      · exact .inr (hbranch l hl)
    · rintro l (hl | hl) <;> cases hl

/-- Behind a label there is what the typing promises for it. -/
theorem Flow.Ok.label {A : Set Cell} (h : Flow.Ok U Λ K (Λ l) c) (hA : Λ l ⊆ A) :
    Flow.Ok U Λ K A (.label l :: c) := by
  refine ⟨h.floor_le.trans hA, ⟨by simp [Instr.reads, Instr.uses], fun l' hl' => ?_, by simp⟩, h⟩
  obtain rfl : l' = l := by simpa [Instr.successors] using hl'
  exact hA

/-- The availability check of the code of a region, from those of its parts. -/
theorem flow_region {A : Set Cell} (hstart : Λ r.tryStart = I)
    (hhandler : Λ r.handlerStart = K₁) (hend : Λ r.handlerEnd = Set.univ) (hK : K ⊆ K₁)
    (hA : I ⊆ A) (hbody : Flow.Ok U Λ K₁ I ob.code)
    (hcatch : Flow.Ok U Λ K (handlerInput K₁ exception) oh.code)
    (hleft : exception.isSome → Set.univ ⊆ Flow.out Λ (handlerInput K₁ exception) oh.code) :
    Flow.Ok U Λ K A (Outline.region r exception ob oh .nil).code ∧
      Set.univ ⊆ Flow.out Λ A (Outline.region r exception ob oh .nil).code := by
  -- what stands in front of the handler and behind it
  have hopened : Flow.Ok U Λ K K₁ (handlerOpening exception) ∧
      Flow.out Λ K₁ (handlerOpening exception) = handlerInput K₁ exception := by
    cases exception with
    | none => exact ⟨hK, rfl⟩
    | some t =>
      have hafter : Flow.after Λ K₁ (.define t .loadException) = insert (.temp t) K₁ := by
        ext c
        simp [Flow.after, Instr.writes, or_comm]
      refine ⟨⟨hK, ⟨by simp [Instr.reads, Operation.reads, Operation.uses],
        by simp [Instr.successors], by simp⟩, ?_⟩, hafter⟩
      rw [hafter]
      exact hK.trans (Set.subset_insert ..)
  have hclosed : Flow.Ok U Λ K (handlerInput K₁ exception) (oh.code ++ handlerClosing exception) ∧
      Set.univ ⊆ Flow.out Λ (handlerInput K₁ exception) (oh.code ++ handlerClosing exception) := by
    cases exception with
    | some t =>
      rw [handlerClosing, List.append_nil]
      exact ⟨hcatch, hleft rfl⟩
    | none =>
      refine ⟨hcatch.append ⟨hcatch.floor_le_out, ⟨by simp [Instr.reads, Instr.uses],
        by simp [Instr.successors], by simp⟩, Set.subset_univ _⟩, ?_⟩
      rw [Flow.out_append]
      exact subset_rfl
  have hlast : Flow.Ok U Λ K (Λ r.handlerStart)
      (handlerOpening exception ++ (oh.code ++ handlerClosing exception ++ [.label r.handlerEnd])) := by
    rw [hhandler]
    refine hopened.1.append ?_
    rw [hopened.2]
    exact hclosed.1.append (.label (hend ▸ Set.subset_univ K) (hend ▸ hclosed.2))
  have hcode : (Outline.region r exception ob oh .nil).code = .label r.tryStart :: (ob.code ++
      .label r.handlerStart :: (handlerOpening exception ++
        (oh.code ++ handlerClosing exception ++ [.label r.handlerEnd]))) := by
    simp [Outline.code]
  rw [hcode]
  refine ⟨.label ?_ (hstart ▸ hA), by simp [Flow.after, hend]⟩
  rw [hstart]
  exact (hbody.mono subset_rfl hK).append (.label hlast (hhandler ▸ hbody.floor_le_out))

/-- What the typing promises for the labels of a region before its parts are looked at. -/
def regionTyping (r : ExceptionRegion) (N : List (Label × Set Cell)) (K I : Set Cell) :
    List (Label × Set Cell) :=
  (r.tryStart, I) :: (r.handlerStart, K) :: (r.handlerEnd, Set.univ) :: N

section

include hr

theorem mem_of_regionTyping (hl : l ∈ (regionTyping r N K₁ I).map Prod.fst) : l ∈ H := by
  rw [mem_hidden hr]
  simp only [regionTyping, List.map_cons, List.mem_cons] at hl
  tauto

include hready

theorem nodup_regionTyping : ((regionTyping r N K₁ I).map Prod.fst).Nodup := by
  refine (nodup_parts hr hready).sublist (.cons_cons _ (.cons_cons _ (.cons_cons _ ?_)))
  exact (List.sublist_append_right _ _).trans (List.sublist_append_left _ _)

/-- The typing fits the labels in use in the protected range. -/
theorem TypedFor.range (hs₁ : Lower.Yields.Calm s s₁) (hΛ : TypedFor U K ctx T s Λ) :
    TypedFor U K₁ (ctx.inside (.guarded :: inner)) ⟨N, T.all⟩ s₁
      (retype (regionTyping r N K₁ I) Λ) := by
  have hnodup : ((regionTyping r N K₁ I).map Prod.fst).Nodup := nodup_regionTyping hr hready
  have hkeep : ∀ l, l ∉ H → retype (regionTyping r N K₁ I) Λ l = Λ l := fun l hl =>
    retype_of_notMem fun hmem => hl (mem_of_regionTyping hr hmem)
  have htyped : ∀ p ∈ N ++ T.all, retype (regionTyping r N K₁ I) Λ p.1 = p.2 := by
    intro p hp
    rcases List.mem_append.1 hp with hp | hp
    · exact retype_of_mem hnodup (by simp [regionTyping, hp])
    · rw [hkeep p.1 (not_mem_hidden hready (.inr (.inl (List.mem_map_of_mem hp))))]
      exact hΛ.typed p hp
  refine ⟨⟨fun l => ?_, fun e he => ?_⟩, fun l hl => ?_, htyped⟩
  · by_cases hl : l ∈ (regionTyping r N K₁ I).map Prod.fst
    · obtain ⟨p, hp, rfl⟩ := List.mem_map.1 hl
      rw [retype_of_mem hnodup hp]
      have hU : U ⊆ K₁ := hready.base.trans hr.floor
      simp only [regionTyping, List.mem_cons] at hp
      rcases hp with rfl | rfl | rfl | hp
      · exact hU.trans hr.input
      · exact hU
      · exact Set.subset_univ _
      · exact hU.trans (hr.typed p hp)
    · rw [retype_of_notMem hl]
      exact hΛ.all l
  · rw [hs₁.epilogue] at he
    rw [hkeep e.label (not_mem_hidden hready (.inr (.inr ⟨e, he, rfl⟩)))]
    exact hΛ.exit e he
  · rcases mem_labels_inside.1 hl with hl | hl
    · obtain ⟨X, hX, hXK⟩ := hr.targets l hl
      exact (htyped _ hX).trans_subset hXK
    · rw [hkeep l (not_mem_hidden hready (.inl hl))]
      exact (hΛ.frames l hl).trans hr.floor

include hs pb in
/-- A label that the protected range names is none of those whose typing the handler chooses. -/
theorem Piece.range_settled (hinv : (ctx.inside (.guarded :: inner)).Inv s₂)
    (hl : ob.Names l) : ¬ s₃.Allocates s₄ l ∧ l ∉ D₂ := by
  have hmem : ∀ l ∈ D₂, l ∈ H := fun l hl => (mem_hidden hr).2 (by simp [hl])
  -- labels that the range allocates
  have hnew : ∀ l, s₁.Allocates s₂ l → l ∉ D₂ := fun l ha hD =>
    absurd (hs.start.labels ▸ ha.1) (bound_hidden hready (hmem l hD)).not_ge
  rcases pb.names_range hr hl with h | h | h | h | ⟨e, he, rfl⟩
  · refine ⟨(hs.old (bound_hidden hready ((mem_hidden hr).2 (by tauto)))).2, fun hD => ?_⟩
    have hnodup := nodup_parts hr hready
    simp only [List.nodup_cons, List.nodup_append] at hnodup
    exact hnodup.2.2.2.2.2 l (List.mem_append.2 h) l hD rfl
  · exact ⟨(hs.old (bound_target hready h)).2,
      fun hD => not_mem_hidden hready (.inr (.inl h)) (hmem l hD)⟩
  · exact ⟨(hs.old (hready.inv.frames l h)).2,
      fun hD => not_mem_hidden hready (.inl h) (hmem l hD)⟩
  · exact ⟨hs.apart h.2, hnew l h⟩
  · refine ⟨hs.apart (hinv.exit e he), fun hD => ?_⟩
    rcases pb.exit e he with he | ⟨-, he⟩
    · rw [hs.start.epilogue] at he
      exact not_mem_hidden hready (.inr (.inr ⟨e, he, rfl⟩)) (hmem _ hD)
    · exact hnew _ he hD

end

include hr hready hs pb ph in
/-- The rule for a protected region, for its code. -/
theorem Piece.region (hkind : r.kind = .catchHandler ↔ exception.isSome)
    (hinv : (ctx.inside (.guarded :: inner)).Inv s₂)
    (hbody : EndsByLeaving ob.code) (hhandler : EndsByLeaving (oh.code ++ handlerClosing exception))
    (hleft : exception.isSome → O₂ = Set.univ) (hK₂ : K₂ ⊆ handlerInput K₁ exception) :
    Piece U K ctx ⟨[], T, [], H⟩ s s₅ (.region r exception ob oh .nil) I Set.univ where
  tally := tally_region hr hready hs pb ph
  due := by simp
  names _ hl := names_region hr hs pb ph hl
  exit e he := by
    simp only [Outline.exits, List.append_nil, List.mem_append]
    rw [hs.epilogue] at he
    rcases ph.exit e he with he | ⟨he, ha⟩
    · rw [hs.between.epilogue] at he
      rcases pb.exit e he with he | ⟨he, ha⟩
      · exact .inl (hs.start.epilogue ▸ he)
      · exact .inr ⟨.inl he, hs.allocates (.inl ha)⟩
    · exact .inr ⟨.inr he, hs.allocates (.inr ha)⟩
  legal z hz := by
    have hz₂ : s₂.Before z := hs.between.before.trans (hs.handler.trans (hs.before.trans hz))
    exact ⟨hr.range, hkind, hbody, hhandler,
      (pb.legal z hz₂).mono (jumps_range hr pb.due),
      (ph.legal z (hs.before.trans hz)).mono (jumps_handler hr hkind ph.due),
      trivial⟩
  flow z hz hzU Λ hΛ := by
    have hz₄ : s₄.Before z := hs.before.trans hz
    have hz₂ : s₂.Before z := hs.between.before.trans (hs.handler.trans hz₄)
    have hmem : ∀ l, l ∈ F ∨ l ∈ D₂ → l ∈ H := fun l hl => (mem_hidden hr).2 (by tauto)
    obtain ⟨Λ₁, hagree₁, hset₁, hcert₁, hok₁⟩ := pb.flow z hz₂ hzU _ (hΛ.range hr hready hs.start)
    have hkeep : ∀ l, l ∉ H → ¬ s₁.Allocates s₂ l → Λ₁ l = Λ l := by
      intro l hl ha
      rw [hagree₁ l ha (fun hF => hl (hmem l (.inl hF))) List.not_mem_nil]
      exact retype_of_notMem fun h => hl (mem_of_regionTyping hr h)
    obtain ⟨Λ₂, hagree₂, hset₂, hcert₂, hok₂⟩ := ph.flow z hz₄ hzU Λ₁
      { all := hset₁.all
        exit := fun e he => hset₁.exit e (hs.between.epilogue ▸ he)
        frames := by
          intro l hl
          rw [labels_inside_handler] at hl
          rw [hkeep l (not_mem_hidden hready (.inl hl)) (hs.old (hready.inv.frames l hl)).1]
          exact (hΛ.frames l hl).trans hr.floor'
        typed := by
          intro p hp
          have hp := hr.leaves p (by simpa [Targets.all] using hp)
          rw [hkeep p.1 (not_mem_hidden hready (.inr (.inl (by grind)))) (hs.old (bound_target hready (by grind))).1]
          exact hΛ.typed p hp }
    -- the labels that the range names, and those of the region, are as before the handler
    have hsame : ∀ l, ob.Names l → Λ₁ l = Λ₂ l := by
      intro l hl
      obtain ⟨ha, hD⟩ := pb.range_settled hr hready hs hinv hl
      exact (hagree₂ l ha hD List.not_mem_nil).symm
    have hregion : ∀ q ∈ regionTyping r N K₁ I, q.1 ∉ F → q.1 ∉ D₂ → Λ₂ q.1 = q.2 := by
      intro q hq hF hD
      have hold := hs.old (bound_hidden hready (mem_of_regionTyping hr (List.mem_map_of_mem hq)))
      rw [hagree₂ q.1 hold.2 hD List.not_mem_nil, hagree₁ q.1 hold.1 hF List.not_mem_nil]
      exact retype_of_mem (nodup_regionTyping hr hready) hq
    have hnodup := nodup_parts hr hready
    simp only [List.nodup_cons, List.mem_cons, List.mem_append, not_or] at hnodup
    obtain ⟨⟨-, -, ⟨h₁, -⟩, h₂⟩, ⟨-, ⟨h₃, -⟩, h₄⟩, ⟨⟨h₅, -⟩, h₆⟩, -⟩ := hnodup
    have hstart : Λ₂ r.tryStart = I := hregion (r.tryStart, I) (by simp [regionTyping]) h₁ h₂
    have hhandlerStart : Λ₂ r.handlerStart = K₁ :=
      hregion (r.handlerStart, K₁) (by simp [regionTyping]) h₃ h₄
    have hend : Λ₂ r.handlerEnd = Set.univ :=
      hregion (r.handlerEnd, Set.univ) (by simp [regionTyping]) h₅ h₆
    have hbodyOk : Flow.Ok U Λ₂ K₁ I ob.code :=
      (hok₁ I subset_rfl hr.input).1.congr fun i hi l hl => hsame l (.inl ⟨i, hi, hl⟩)
    obtain ⟨hcatch, hout⟩ := hok₂ (handlerInput K₁ exception) subset_rfl hK₂
    refine ⟨Λ₂, fun l ha hF hH => ?_, ⟨hset₂.all, fun e he => hset₂.exit e (hs.epilogue ▸ he)⟩,
      ⟨?_, hcert₁.congr hsame, hcert₂, trivial⟩, fun A hA _ => ?_⟩
    · rw [hagree₂ l (fun h => ha (hs.allocates (.inr h))) (fun h => hH (hmem l (.inr h)))
        List.not_mem_nil]
      exact hkeep l hH fun h => ha (hs.allocates (.inl h))
    · rw [hstart, hhandlerStart]
      exact hbodyOk
    · exact flow_region hstart hhandlerStart hend hr.floor hA hbodyOk
        (hcatch.mono subset_rfl hr.floor') fun h => (hleft h) ▸ hout

/-! ### Entering a region -/

section

include hr

/-- The labels that the range may jump to or has to place are hidden ones and targets. -/
theorem mem_range_locals (hl : l ∈ Locals.labels ⟨F, ⟨N, T.all⟩, D₁, []⟩ ∨
      l ∈ Locals.unplaced ⟨F, ⟨N, T.all⟩, D₁, []⟩) : l ∈ H ∨ l ∈ T.all.map Prod.fst := by
  have hD₁ := hr.shares.range.mem_iff (a := l)
  rw [mem_hidden hr]
  simp only [Locals.labels, Locals.unplaced, Targets.all, List.map_append, List.mem_append,
    List.append_nil] at hl hD₁ ⊢
  tauto

include hready

theorem inv_range (hinv : ctx.Inv s₁) (hs : s.Before s₁) :
    (ctx.inside (.guarded :: inner)).Inv s₁ := by
  refine ⟨fun l hl => ?_, hinv.exit, hinv.placements⟩
  rcases labels_range hr hl with hl | hl | hl
  · exact (bound_hidden hready ((mem_hidden hr).2 (by simp [hl]))).trans_le hs.labels
  · exact (bound_target hready hl).trans_le hs.labels
  · exact hinv.frames l hl

theorem fits_range :
    Locals.Fits ⟨F, ⟨N, T.all⟩, D₁, []⟩ K₁ (ctx.inside (.guarded :: inner)) s := by
  have hnodup := nodup_parts hr hready
  simp only [List.nodup_cons, List.nodup_append] at hnodup
  obtain ⟨-, -, -, hsplit, -⟩ := hnodup
  have hD₁ : D₁.Nodup := hr.shares.range.nodup_iff.2 (List.nodup_append.2 hsplit)
  have hF : ∀ l ∈ F, l ∈ H := fun l hl => (mem_hidden hr).2 (by simp [hl])
  refine ⟨fun l hl => ?_, fun l hl hmem => ?_, fun e he l hl heq => ?_, ?_, hsplit.1,
    fun p hp hmem => ?_, fun p hp _ => hr.typed p hp, fun l hl => ?_, by simp⟩
  · exact (mem_range_locals hr hl).elim (bound_hidden hready) (bound_target hready)
  · have hl : l ∈ F := by simpa using hl
    rcases labels_range hr hmem with hmem | hmem | hmem
    · exact hsplit.2.2 l hl l hmem rfl
    · exact not_mem_hidden hready (.inr (.inl hmem)) (hF l hl)
    · exact not_mem_hidden hready (.inl hmem) (hF l hl)
  · rcases mem_range_locals hr hl with hl | hl
    · exact not_mem_hidden hready (.inr (.inr ⟨e, he, heq.symm⟩)) hl
    · exact hready.fits.exit e he l (.inl (by simpa [Locals.labels] using hl)) heq
  · simpa [Locals.unplaced] using hD₁
  · rcases List.mem_append.1 hp with hp | hp
    · exact hsplit.2.2 p.1 hmem p.1 (List.mem_map_of_mem hp) rfl
    · exact not_mem_hidden hready (.inr (.inl (List.mem_map_of_mem hp))) (hF _ hmem)
  · rw [hr.shares.range.mem_iff] at hl
    simp only [Locals.labels, Targets.all, List.map_append, List.mem_append] at hl ⊢
    tauto

end

/-- Inside a native handler nothing is suspended. -/
theorem mayPause_inside (frame : Frame) (h : frame ∈ frames)
    (hnative : frame.isNative) :
    (ctx.inside frames).mayPause = false := by
  have hany : (ctx.inside frames).frames.any Frame.isNative = true :=
    List.any_eq_true.2 ⟨frame, List.mem_append_left _ h, hnative⟩
  simp [Context.mayPause, hany]

include hr hready in
/-- What can be relied on around a region can be relied on in its protected range. -/
theorem Ready.range :
    Ready U K₁ (ctx.inside (.guarded :: inner)) ⟨F, ⟨N, T.all⟩, D₁, []⟩ s where
  inv := inv_range hr hready hready.inv (.refl s)
  fits := fits_range hr hready
  base := hready.base.trans hr.floor
  pause hpause := by
    rw [mayPause_inside .guarded (List.mem_cons_self ..) rfl] at hpause
    cases hpause
  blocks p hp := (hready.blocks p hp).trans hr.floor

theorem inv_inside (h : (ctx.inside frames).Inv s) : ctx.Inv s where
  frames l hl := h.frames l (by
    rw [Context.labels, Context.inside, List.flatMap_append]
    exact List.mem_append_right _ hl)
  exit := h.exit
  placements := h.placements

theorem inv_handler (h : ctx.Inv s) :
    (ctx.inside [handlerFrame kind]).Inv s where
  frames l hl := h.frames l (labels_inside_handler ▸ hl)
  exit := h.exit
  placements := h.placements

include hr hready in
theorem fits_handler (hs : s.Before s₃)
    (hexit : ∀ e, s₃.epilogue = some e → s.epilogue = some e ∨ s.Allocates s₃ e.label) :
    Locals.Fits ⟨D₂, ⟨[], far⟩, D₂, []⟩ K₂ (ctx.inside [handlerFrame r.kind]) s₃ := by
  have hnodup := nodup_parts hr hready
  simp only [List.nodup_cons, List.nodup_append] at hnodup
  obtain ⟨-, -, -, -, hD₂, -⟩ := hnodup
  have hmem : ∀ l ∈ D₂, l ∈ H := fun l hl => (mem_hidden hr).2 (by simp [hl])
  have hfar : ∀ l ∈ far.map Prod.fst, l ∈ T.all.map Prod.fst := by
    intro l hl
    obtain ⟨p, hp, rfl⟩ := List.mem_map.1 hl
    exact List.mem_map_of_mem (hr.leaves p hp)
  have hclaims : ∀ l, l ∈ Locals.labels ⟨D₂, ⟨[], far⟩, D₂, []⟩ ∨
      l ∈ Locals.unplaced ⟨D₂, ⟨[], far⟩, D₂, []⟩ → l ∈ H ∨ l ∈ T.all.map Prod.fst := by
    intro l hl
    have h₂ := hfar l
    simp only [Locals.labels, Locals.unplaced, Targets.all, List.nil_append, List.append_nil,
      List.mem_append] at hl h₂ ⊢
    tauto
  have hbound : ∀ l, l ∈ H ∨ l ∈ T.all.map Prod.fst → l.index < s.labelCount := fun l hl =>
    hl.elim (bound_hidden hready) (bound_target hready)
  refine ⟨fun l hl => (hbound l (hclaims l hl)).trans_le hs.labels, fun l hl => ?_,
    fun e he l hl => ?_, by simpa [Locals.unplaced] using hD₂, hD₂, fun p hp hl => ?_, by simp,
    fun l hl => by simp [Locals.labels, hl], by simp⟩
  · rw [labels_inside_handler]
    exact fun hmem' => not_mem_hidden hready (.inl hmem') (hmem l (by simpa using hl))
  · rintro rfl
    rcases hexit e he with he | he
    · rcases hclaims _ hl with hl | hl
      · exact not_mem_hidden hready (.inr (.inr ⟨e, he, rfl⟩)) hl
      · exact hready.fits.exit e he e.label (.inl (by simpa [Locals.labels] using hl)) rfl
    · exact absurd he.1 (hbound _ (hclaims _ hl)).not_ge
  · exact not_mem_hidden hready
      (.inr (.inl (List.mem_map_of_mem (hr.leaves p (by simpa [Targets.all] using hp)))))
      (hmem _ hl)

include hr hready in
/-- What can be relied on around a region can be relied on in its handler. -/
theorem Ready.handler (hs : s.Before s₃) (hinv : ctx.Inv s₃)
    (hexit : ∀ e, s₃.epilogue = some e → s.epilogue = some e ∨ s.Allocates s₃ e.label) :
    Ready U K₂ (ctx.inside [handlerFrame r.kind]) ⟨D₂, ⟨[], far⟩, D₂, []⟩ s₃ where
  inv := inv_handler hinv
  fits := fits_handler hr hready hs hexit
  base := hready.base.trans hr.floor'
  pause hpause := by
    rw [mayPause_inside _ (.head _) (by cases r.kind <;> rfl)] at hpause
    cases hpause
  blocks p hp := (hready.blocks p hp).trans hr.floor'

theorem Ready.calm (h : Ready U K ctx L s) (hs : Lower.Yields.Calm s s₁) :
    Ready U K ctx L s₁ :=
  { h with
    inv := h.inv.mono hs.before hs.epilogue hs.placements
    fits :=
      { h.fits with
        bound := fun l hl => hs.labels ▸ h.fits.bound l hl
        exit := fun e he => h.fits.exit e (hs.epilogue ▸ he) } }

/-- What is added in front of a piece and allocates nothing does not matter for it. -/
theorem Piece.calm_left (h : Piece U K ctx L s₁ s₂ ob I O₁)
    (hs : Lower.Yields.Calm s s₁) : Piece U K ctx L s s₂ ob I O₁ where
  tally n := by simpa only [Session.Allocates, hs.labels] using h.tally n
  due := h.due
  names l hl := by simpa only [Session.Allocates, hs.labels] using h.names l hl
  exit e he := by simpa only [Session.Allocates, hs.labels, hs.epilogue] using h.exit e he
  legal := h.legal
  flow z hz hzU Λ hΛ := by
    have hΛ₁ : TypedFor U K ctx L.typed s₁ Λ := ⟨hs.settled hΛ.toSettled, hΛ.frames, hΛ.typed⟩
    simpa only [Session.Allocates, hs.labels] using h.flow z hz hzU Λ hΛ₁

theorem Piece.calm_right (h : Piece U K ctx L s s₁ ob I O₁)
    (hs : Lower.Yields.Calm s₁ s₂) : Piece U K ctx L s s₂ ob I O₁ where
  tally n := by simpa only [Session.Allocates, hs.labels] using h.tally n
  due := h.due
  names l hl := by simpa only [Session.Allocates, hs.labels, hs.epilogue] using h.names l hl
  exit e he := by
    rw [hs.epilogue] at he
    simpa only [Session.Allocates, hs.labels] using h.exit e he
  legal z hz := h.legal z (hs.before.trans hz)
  flow z hz hzU Λ hΛ := by
    obtain ⟨Λ', hagree, hset, hrest⟩ := h.flow z (hs.before.trans hz) hzU Λ hΛ
    exact ⟨Λ', by simpa only [Session.Allocates, hs.labels] using hagree, hs.settled hset, hrest⟩

end Region

/-! ### Computations that end by leaving -/

/-- The code so far ends with an instruction that does not leave. -/
def Session.Stays (s : Session) : Prop :=
  ∃ (before : Array Instr) (i : Instr), s.code = before.push i ∧ ∀ l, i.unfused ≠ .leave l

namespace Lower

variable {U K K₁ K₂ I : Set Cell} {ctx : Context} {L : Locals} {T : Targets}
  {N far : List (Label × Set Cell)} {H F D₁ D₂ : List Label} {inner : List Frame}
  {r : ExceptionRegion} {s : Session} {α β : Type}
variable {code : Lower Unit}

/-- Like `Yields`, for a computation whose code ends by leaving. -/
def Leaves (U K : Set Cell) (ctx : Context) (L : Locals) (s : Session) (I : Set Cell) (m : Lower α)
    (O : α → Set Cell) : Prop :=
  Ready U K ctx L s → ∀ a s', m ctx s = .ok a s' →
    ∃ o, Grows ctx s s' o ∧ Piece U K ctx L s s' o I (O a) ∧ EndsByLeaving o.code

theorem Leaves.yields {m : Lower α} {O : α → Set Cell} (h : Leaves U K ctx L s I m O) :
    Yields U K ctx L s I m O := by
  intro hready a s' hrun
  obtain ⟨o, g, p, -⟩ := h hready a s' hrun
  exact ⟨o, g, p⟩

theorem Leaves.freshHidden {D : List Label} {f : Label → Lower β}
    {O : β → Set Cell}
    (h : ∀ l {s'} {_ : s.Before s'}, Leaves U K ctx ⟨F, T, D, l :: H⟩ s' I (f l) O) :
    Leaves U K ctx ⟨F, T, D, H⟩ s I (freshLabel >>= f) O := by
  intro hready b s'' hrun
  obtain ⟨o, g, p, hleave⟩ :=
    @h _ _ (Yields.before_label s) (Yields.ready_freshHidden hready) b s'' hrun
  obtain ⟨g, p⟩ := Yields.piece_freshHidden hready g p
  exact ⟨o, g, p, hleave⟩

/-- The last instruction that the computation adds leaves the region it is in. -/
def LeavesLast (m : Lower α) : Prop :=
  ∀ ctx s a s', m ctx s = .ok a s' →
    ∃ (before : Array Instr) (l : Label), s'.code = before.push (.leave l)

theorem leavesLast_leave (l : Label) : LeavesLast (emit (.leave l)) := by
  intro ctx s a s' h
  cases h
  exact ⟨s.code, l, rfl⟩

theorem LeavesLast.bind {m : Lower α} {f : α → Lower β} (h : ∀ a, LeavesLast (f a)) :
    LeavesLast (m >>= f) := by
  intro ctx s b s'' hrun
  obtain ⟨a, s', -, hf⟩ := bind_ok hrun
  exact h a ctx s' b s'' hf

theorem Leaves.of_last {m : Lower α} {O : α → Set Cell} (hlast : LeavesLast m)
    (hs : s.Stays) (h : Yields U K ctx L s I m O) : Leaves U K ctx L s I m O := by
  intro hready a s' hrun
  obtain ⟨o, g, p⟩ := h hready a s' hrun
  refine ⟨o, g, p, ?_⟩
  obtain ⟨before, l, hcode⟩ := hlast ctx s a s' hrun
  have hgrow := g.code
  rw [hcode] at hgrow
  rcases List.eq_nil_or_concat o.code with hnil | ⟨front, i, hfront⟩
  · -- then the code before would have to end by leaving
    obtain ⟨before', j, hj, hstays⟩ := hs
    rw [hnil, hj] at hgrow
    simp only [Array.toList_push, List.map_append, List.map_cons, List.map_nil,
      List.append_nil] at hgrow
    have hlast := (List.append_inj' hgrow rfl).2
    exact absurd (List.cons.inj hlast).1.symm (hstays l)
  · rw [hfront] at hgrow ⊢
    simp only [Array.toList_push, List.map_append, List.map_cons, List.map_nil,
      List.concat_eq_append, ← List.append_assoc] at hgrow
    have hlast := (List.cons.inj (List.append_inj' hgrow rfl).2).1
    exact ⟨front, i, [], by simp, .inr ⟨l, hlast.symm⟩, by simp⟩

/-! ### The rule -/

/-- What holds of the code of a handler. -/
structure Handler (U K₁ K₂ : Set Cell) (ctx : Context) (L : Locals) (kind : RegionKind)
    (s s' : Session) (exception : Option Temp) (o : Outline) (O : Set Cell) : Prop where
  kind : kind = .catchHandler ↔ exception.isSome
  code : s'.code.toList.map Instr.unfused = s.code.toList.map Instr.unfused ++
    (handlerOpening exception ++ o.code ++ handlerClosing exception)
  regions : s'.regions.toList = s.regions.toList ++ o.regions
  points : s'.resumePoints.toList = s.resumePoints.toList ++ o.points
  before : s.Before s'
  inv : ctx.Inv s'
  ends : EndsByLeaving (o.code ++ handlerClosing exception)
  left : exception.isSome → O = Set.univ
  floor : K₂ ⊆ handlerInput K₁ exception
  piece : Piece U K₂ ctx L s s' o (handlerInput K₁ exception) O

/-- Like `Yields`, for a computation whose code is that of a handler. -/
def Handles (U K₁ K₂ : Set Cell) (ctx : Context) (L : Locals) (s : Session) (kind : RegionKind)
    (m : Lower Unit) : Prop :=
  Ready U K₂ ctx L s → ∀ a s', m ctx s = .ok a s' →
    ∃ exception o O, Handler U K₁ K₂ ctx L kind s s' exception o O

theorem Handles.catch {code : Temp → Lower Unit} (hfloor : K₂ ⊆ K₁)
    (hlast : ∀ t, LeavesLast (code t))
    (h : ∀ t s', s.Before s' →
      Yields U K₂ ctx L s' (insert (.temp t) K₁) (code t) fun _ => Set.univ) :
    Handles U K₁ K₂ ctx L s .catchHandler (define .object .loadException >>= code) := by
  intro hready a s' hrun
  obtain ⟨t, s₁, hdefine, hcode⟩ := bind_ok hrun
  obtain ⟨hcalm, hpush⟩ := Yields.define_ok hdefine
  obtain ⟨o, g, p, hends⟩ := Leaves.of_last (hlast t) ⟨s.code, _, hpush, by simp [Instr.unfused]⟩
    (h t s₁ hcalm.before) (hready.calm hcalm) a s' hcode
  refine ⟨some t, o, Set.univ, by simp, ?_, ?_, ?_, hcalm.before.trans g.before, g.inv, ?_,
    fun _ => rfl, hfloor.trans (Set.subset_insert ..), p.calm_left hcalm⟩
  · rw [g.code, hpush]
    simp [handlerOpening, handlerClosing, Instr.unfused]
  · rw [g.regions, hcalm.regions]
  · rw [g.points, hcalm.points]
  · simpa [handlerClosing] using hends

theorem Handles.finally {O : Unit → Set Cell} (hfloor : K₂ ⊆ K₁)
    (h : Yields U K₂ ctx L s K₁ code O) :
    Handles U K₁ K₂ ctx L s .finallyHandler (do code; emit .endFinally) := by
  intro hready a s' hrun
  obtain ⟨u, s₁, hcode, hend⟩ := bind_ok hrun
  obtain ⟨o, g, p⟩ := h hready u s₁ hcode
  cases hend
  have hcalm : Yields.Calm s₁ { s₁ with code := s₁.code.push .endFinally } :=
    .of_tables rfl
  refine ⟨none, o, O u, by simp, ?_, g.regions, g.points, g.before.trans hcalm.before,
    g.inv.mono hcalm.before rfl rfl, endsByLeaving_endFinally _, by simp, hfloor, p.calm_right hcalm⟩
  simp [g.code, handlerOpening, handlerClosing, Instr.unfused]

/-- Lowers code inside further frames. -/
def inside (frames : List Frame) (m : Lower α) : Lower α :=
  fun ctx => m (ctx.inside frames)

theorem emit_ok {i : Instr} {a : Unit} {s' : Session} (h : emit i ctx s = .ok a s') :
    Yields.Calm s s' ∧ s'.code = s.code.push i := by
  cases h
  exact ⟨.of_tables rfl, rfl⟩

/-- A protected region. -/
theorem region_leaves {handler : Lower Unit}
    (hr : RegionParts K K₁ K₂ I T N far H F D₁ D₂ inner r)
    (hcode : ∀ s₁, s.Before s₁ → s₁.Stays → Leaves U K₁ (ctx.inside (.guarded :: inner))
      ⟨F, ⟨N, T.all⟩, D₁, []⟩ s₁ I code fun _ => Set.univ)
    (hhandler : ∀ s₃, s.Before s₃ → Handles U K₁ K₂ (ctx.inside [handlerFrame r.kind])
      ⟨D₂, ⟨[], far⟩, D₂, []⟩ s₃ r.kind handler) :
    Leaves U K ctx ⟨[], T, [], H⟩ s I
      (do
        inside (.guarded :: inner) do
          place r.tryStart
          code
        place r.handlerStart
        within (handlerFrame r.kind) handler
        place r.handlerEnd
        addRegion r)
      fun _ => Set.univ := by
  intro hready u s₅ hrun
  obtain ⟨u₂, s₂, hrange, h⟩ := bind_ok hrun
  change (place r.tryStart >>= fun _ => code) (ctx.inside (.guarded :: inner)) s = _ at hrange
  obtain ⟨u₁, s₁, hstart, hbody⟩ := bind_ok hrange
  obtain ⟨u₃, s₃, hbetween, h⟩ := bind_ok h
  obtain ⟨u₄, s₄, hhandle, h⟩ := bind_ok h
  obtain ⟨hcalm₁, hpush₁⟩ := emit_ok hstart
  obtain ⟨hcalm₃, hpush₃⟩ := emit_ok hbetween
  obtain ⟨ob, gb, pb, hends⟩ := hcode s₁ hcalm₁.before ⟨s.code, _, hpush₁, by simp [Instr.unfused]⟩
    ((hready.range hr).calm hcalm₁) u₂ s₂ hbody
  have hbefore₃ : s.Before s₃ := hcalm₁.before.trans (gb.before.trans hcalm₃.before)
  have hinv₃ : ctx.Inv s₃ :=
    (inv_inside gb.inv).mono hcalm₃.before hcalm₃.epilogue hcalm₃.placements
  have hexit₃ : ∀ e, s₃.epilogue = some e → s.epilogue = some e ∨ s.Allocates s₃ e.label := by
    intro e he
    rw [hcalm₃.epilogue] at he
    rcases pb.exit e he with he | ⟨-, ha⟩
    · exact .inl (hcalm₁.epilogue ▸ he)
    · exact .inr ⟨hcalm₁.labels ▸ ha.1, hcalm₃.labels ▸ ha.2⟩
  obtain ⟨exception, oh, O₂, hh⟩ := hhandler s₃ hbefore₃ (hready.handler hr hbefore₃ hinv₃ hexit₃)
    u₄ s₄ hhandle
  cases h
  let s₅ : Session :=
    { s₄ with code := s₄.code.push (.label r.handlerEnd), regions := s₄.regions.push r }
  have hbefore₅ : s₄.Before s₅ := ⟨le_rfl, fun _ e he => ⟨e, he, rfl⟩, fun _ he => he⟩
  have hs : Stages s s₁ s₂ s₃ s₄ s₅ :=
    ⟨hcalm₁, gb.before, hcalm₃, hh.before, hbefore₅, rfl, rfl⟩
  refine ⟨.region r exception ob oh .nil, ⟨?_, ?_, ?_, hbefore₃.trans (hh.before.trans hbefore₅),
    (inv_inside hh.inv).mono hbefore₅ rfl rfl⟩,
    Piece.region hr hready hs pb hh.piece hh.kind gb.inv hends hh.ends hh.left hh.floor, ?_⟩
  · show List.map _ (s₄.code.push _).toList = _
    rw [Array.toList_push, List.map_append, hh.code, hpush₃, Array.toList_push, List.map_append,
      gb.code, hpush₁]
    simp [Outline.code, Instr.unfused]
  · show (s₄.regions.push r).toList = _
    rw [Array.toList_push, hh.regions, hcalm₃.regions, gb.regions, hcalm₁.regions]
    simp [Outline.regions]
  · show s₄.resumePoints.toList = _
    rw [hh.points, hcalm₃.points, gb.points, hcalm₁.points]
    simp [Outline.points]
  · have hends := (hh.ends.append (.label r.tryStart :: ob.code ++ .label r.handlerStart ::
      handlerOpening exception)).label r.handlerEnd
    simpa [Outline.code] using hends

end Lower

end ScriptLowering
