import ScriptLowering.Proofs.Emission

/-!
# Single steps

The rules for the steps that all computations are made of: allocating and placing labels, jumping,
defining a temp, performing an effect, and the steps that leave no trace in the code.
-/

namespace ScriptLowering.Lower.Yields

variable {U K : Set Cell} {ctx : Context} {L : Locals} {F D H : List Label}
  {T : Targets} {s : Session} {I X : Set Cell} {α β : Type}

/-! ### Labels -/

/-- The session with one more label. -/
theorem before_label (s : Session) :
    s.Before { s with labelCount := s.labelCount + 1 } :=
  ⟨Nat.le_succ _, fun _ e h => ⟨e, h, rfl⟩, fun _ h => h⟩

/-- A piece of code for which a label was allocated in front of it: the account of the label may
have been opened in any of the ways that `L'` can differ from `L`. -/
private theorem allocate (L' : Locals)
    (hl : l = ⟨s.labelCount⟩) (htyped : L'.typed = L.typed)
    (hfree : ∀ l' ∈ L'.free, l' ∈ L.free ∨ l' = l)
    (hhidden : ∀ l' ∈ L'.hidden, l' ∈ L.hidden ∨ l' = l)
    (hdue : ∀ l' ∈ L.due, l' ∈ L'.due)
    (hunplaced : ∀ l' ∈ L'.unplaced, l' ∈ L.unplaced ∨ l' = l)
    (hplaced : l ∈ L'.free → l ∈ L'.due)
    (g : Grows ctx { s with labelCount := s.labelCount + 1 } s'' o)
    (p : Piece U K ctx L' { s with labelCount := s.labelCount + 1 } s'' o I O) :
    Grows ctx s s'' o ∧ Piece U K ctx L s s'' o I O := by
  have hlt : s.labelCount + 1 ≤ s''.labelCount := g.before.labels
  have halloc : ∀ l', Session.Allocates { s with labelCount := s.labelCount + 1 } s'' l' →
      s.Allocates s'' l' := fun l' ha => ⟨(Nat.le_succ _).trans ha.1, ha.2⟩
  have hself : s.Allocates s'' l := by
    subst hl
    exact ⟨le_rfl, hlt⟩
  refine ⟨⟨g.code, g.regions, g.points, (before_label s).trans g.before, g.inv⟩, ?_⟩
  have hlabels : ∀ l' ∈ L'.labels, l' ∈ L.labels ∨ l' = l := by
    intro l' hl'
    simp only [Locals.labels, List.mem_append, htyped] at hl' ⊢
    rcases hl' with hl' | hl'
    · exact (hfree l' hl').imp_left .inl
    · exact .inl (.inr hl')
  refine ⟨fun n => ⟨(p.tally n).1, fun hn => ?_⟩, fun l' hl' => p.due l' (hdue l' hl'),
    fun l' hl' => ?_, fun e he => ?_, fun z hz => (p.legal z hz).mono ?_, fun z hz hzU Λ hΛ => ?_⟩
  · rcases (p.tally n).2 hn with ha | hmem
    · exact .inl (halloc _ ha)
    · rcases hunplaced _ hmem with hmem | hmem
      · exact .inr hmem
      · exact .inl (hmem ▸ hself)
  · rcases p.names l' hl' with h | h | h | h | h
    · exact .inl h
    · rcases hlabels l' h with h | rfl
      · exact .inr (.inl h)
      · exact .inr (.inr (.inr (.inl hself)))
    · rcases hhidden l' h with h | rfl
      · exact .inr (.inr (.inl h))
      · exact .inr (.inr (.inr (.inl hself)))
    · exact .inr (.inr (.inr (.inl (halloc l' h))))
    · exact .inr (.inr (.inr (.inr h)))
  · exact (p.exit e he).imp_right (And.imp_right (halloc _))
  · unfold Locals.jumps
    rw [htyped]
    refine (Jumps.Le.refl _).withLabels fun l' hl' => .inr ?_
    rcases List.mem_append.1 hl' with hl' | hl'
    · simp only [List.mem_append] at hl' ⊢
      rcases hl' with hl' | hl'
      · rcases hfree l' hl' with h | rfl
        · exact .inl (.inl h)
        · exact .inr (p.due _ (hplaced hl'))
      · exact .inl (.inr hl')
    · exact List.mem_append_right _ hl'
  · have hΛ' : TypedFor U K ctx L'.typed { s with labelCount := s.labelCount + 1 } Λ :=
      htyped ▸ ⟨⟨hΛ.all, hΛ.exit⟩, hΛ.frames, hΛ.typed⟩
    obtain ⟨Λ', hagree, hrest⟩ := p.flow z hz hzU Λ hΛ'
    refine ⟨Λ', fun l' ha hF hH => hagree l' (fun h => ha (halloc l' h)) (fun h => ?_)
      (fun h => ?_), hrest⟩
    · rcases hfree l' h with h | rfl
      · exact hF h
      · exact ha hself
    · rcases hhidden l' h with h | rfl
      · exact hH h
      · exact ha hself

/-- A new label is none of the labels in use. -/
private theorem fits_new (hinv : ctx.Inv s) (hfits : L.Fits K ctx s) {L' : Locals}
    (hl : l = ⟨s.labelCount⟩) (htyped : L'.typed = L.typed)
    (hclaims : ∀ l', l' ∈ L'.labels ∨ l' ∈ L'.unplaced →
      (l' ∈ L.labels ∨ l' ∈ L.unplaced) ∨ l' = l)
    (hopen : ∀ l', l' ∈ L'.free ∨ l' ∈ L'.hidden → (l' ∈ L.free ∨ l' ∈ L.hidden) ∨ l' = l)
    (hfree : L'.free = L.free ∨ L'.free = l :: L.free)
    (hplaced : ∀ l' ∈ L'.due, l' ∈ L.due ∨ l' = l)
    (hnodup : L'.unplaced.Nodup) (hdue : ∀ l' ∈ L'.due, l' ∈ L'.labels)
    (hhidden : ∀ l' ∈ L'.hidden, l' ∉ L'.labels) :
    L'.Fits K ctx { s with labelCount := s.labelCount + 1 } where
  bound l' hl' := by
    rcases hclaims l' hl' with h | rfl
    · exact Nat.lt_succ_of_lt (hfits.bound l' h)
    · simp [hl]
  apart l' hl' hmem := by
    rcases hopen l' hl' with h | rfl
    · exact hfits.apart l' h hmem
    · have := hinv.frames _ hmem
      simp [hl] at this
  exit e he l' hl' := by
    rcases hclaims l' hl' with h | rfl
    · exact hfits.exit e he l' h
    · rintro rfl
      have := hinv.exit e he
      simp [hl] at this
  nodup := hnodup
  free := by
    rcases hfree with h | h
    · exact h ▸ hfits.free
    · rw [h, List.nodup_cons]
      refine ⟨fun hmem => ?_, hfits.free⟩
      have := hfits.bound l (by simp [Locals.labels, hmem])
      simp [hl] at this
  typed p hp := by
    rw [htyped] at hp
    intro hmem
    rcases hfree with h | h
    · exact hfits.typed p hp (h ▸ hmem)
    · rcases List.mem_cons.1 (h ▸ hmem) with heq | hmem
      · have := hfits.bound p.1 (.inl (by simp [Locals.labels]; exact .inr ⟨p.2, hp⟩))
        simp [heq, hl] at this
      · exact hfits.typed p hp hmem
  near p hp hmem := by
    rw [htyped] at hp
    rcases hplaced p.1 hmem with h | h
    · exact hfits.near p hp h
    · have := hfits.bound p.1 (.inl (by simp [Locals.labels, Targets.all]; exact .inr (.inl ⟨p.2, hp⟩)))
      simp [h, hl] at this
  due := hdue
  hidden := hhidden

private theorem new_not_mem (hfits : L.Fits K ctx s) :
    ¬ ((⟨s.labelCount⟩ : Label) ∈ L.labels ∨ (⟨s.labelCount⟩ : Label) ∈ L.unplaced) :=
  fun h => lt_irrefl _ (hfits.bound _ h)

private theorem ready_fresh (h : Ready U K ctx ⟨F, T, D, H⟩ s) :
    Ready U K ctx ⟨⟨s.labelCount⟩ :: F, T, ⟨s.labelCount⟩ :: D, H⟩
      { s with labelCount := s.labelCount + 1 } := by
  have hnew := new_not_mem h.fits
  simp only [Locals.labels, Locals.unplaced, List.mem_append] at hnew
  refine { h with
    inv := h.inv.mono (before_label s) rfl rfl
    fits := fits_new h.inv h.fits rfl rfl ?_ ?_ (.inr rfl) (by simp [or_comm]) ?_ ?_ ?_ }
  · simp only [Locals.labels, Locals.unplaced, List.mem_append, List.mem_cons]
    tauto
  · simp only [List.mem_cons]
    tauto
  · exact List.nodup_cons.2 ⟨fun hmem => hnew (.inr (List.mem_append.1 hmem)), h.fits.nodup⟩
  · intro l hl
    rcases List.mem_cons.1 hl with rfl | hl
    · simp [Locals.labels]
    · exact .tail _ (h.fits.due l hl)
  · intro l hl hmem
    rcases List.mem_cons.1 hmem with rfl | hmem
    · exact hnew (.inr (.inr hl))
    · exact h.fits.hidden l hl hmem

/-- Allocating a label that the rest of the computation places. -/
theorem fresh {f : Label → Lower β} {O : β → Set Cell}
    (h : ∀ l {s'} {_ : s.Before s'}, Yields U K ctx ⟨l :: F, T, l :: D, H⟩ s' I (f l) O) :
    Yields U K ctx ⟨F, T, D, H⟩ s I (freshLabel >>= f) O := by
  intro hready b s'' hrun
  obtain ⟨o, g, p⟩ := @h _ _ (before_label s) (ready_fresh hready) b s'' hrun
  refine ⟨o, allocate ⟨⟨s.labelCount⟩ :: F, T, ⟨s.labelCount⟩ :: D, H⟩ rfl rfl ?_ ?_ ?_ ?_ ?_ g p⟩
  · simp [or_comm]
  · simp +contextual
  · simp +contextual
  · simp [Locals.unplaced]
    tauto
  · simp

theorem ready_freshHidden (h : Ready U K ctx ⟨F, T, D, H⟩ s) :
    Ready U K ctx ⟨F, T, D, ⟨s.labelCount⟩ :: H⟩ { s with labelCount := s.labelCount + 1 } := by
  have hnew := new_not_mem h.fits
  simp only [Locals.labels, Locals.unplaced, List.mem_append] at hnew
  refine { h with
    inv := h.inv.mono (before_label s) rfl rfl
    fits := fits_new h.inv h.fits rfl rfl ?_ ?_ (.inl rfl) (by simp +contextual) ?_ h.fits.due ?_ }
  · simp only [Locals.labels, Locals.unplaced, List.mem_append, List.mem_cons]
    tauto
  · simp only [List.mem_cons]
    tauto
  · simp only [Locals.unplaced, List.nodup_middle, List.nodup_cons, List.mem_append]
    exact ⟨by tauto, h.fits.nodup⟩
  · intro l hl hmem
    rcases List.mem_cons.1 hl with rfl | hl
    · exact hnew (.inl (by simpa [Locals.labels] using hmem))
    · exact h.fits.hidden l hl hmem

/-- A piece of code that places, inside a block or region, a label that was allocated in front of
it. -/
theorem piece_freshHidden (hready : Ready U K ctx ⟨F, T, D, H⟩ s)
    (g : Grows ctx { s with labelCount := s.labelCount + 1 } s'' o)
    (p : Piece U K ctx ⟨F, T, D, ⟨s.labelCount⟩ :: H⟩ { s with labelCount := s.labelCount + 1 } s''
      o I O) : Grows ctx s s'' o ∧ Piece U K ctx ⟨F, T, D, H⟩ s s'' o I O := by
  refine allocate ⟨F, T, D, ⟨s.labelCount⟩ :: H⟩ rfl rfl ?_ ?_ ?_ ?_ ?_ g p
  · simp +contextual
  · simp [or_comm]
  · simp
  · simp [Locals.unplaced]
    tauto
  · exact fun hmem => (new_not_mem hready.fits (.inl (by simp [Locals.labels, hmem]))).elim

/-- Allocating a label that the rest of the computation places inside a block or region. -/
theorem freshHidden {f : Label → Lower β} {O : β → Set Cell}
    (h : ∀ l {s'} {_ : s.Before s'}, Yields U K ctx ⟨F, T, D, l :: H⟩ s' I (f l) O) :
    Yields U K ctx ⟨F, T, D, H⟩ s I (freshLabel >>= f) O := by
  intro hready b s'' hrun
  obtain ⟨o, g, p⟩ := @h _ _ (before_label s) (ready_freshHidden hready) b s'' hrun
  exact ⟨o, piece_freshHidden hready g p⟩

/-- Allocating a label that the rest of the computation does not use. -/
theorem freshUnused {f : Label → Lower β} {O : β → Set Cell}
    (h : ∀ l {s'} {_ : s.Before s'}, Yields U K ctx ⟨F, T, D, H⟩ s' I (f l) O) :
    Yields U K ctx ⟨F, T, D, H⟩ s I (freshLabel >>= f) O := by
  intro hready b s'' hrun
  have hready' : Ready U K ctx ⟨F, T, D, H⟩ { s with labelCount := s.labelCount + 1 } :=
    { hready with
      inv := hready.inv.mono (before_label s) rfl rfl
      fits := { hready.fits with bound := fun l hl => Nat.lt_succ_of_lt (hready.fits.bound l hl) } }
  obtain ⟨o, g, p⟩ := @h ⟨s.labelCount⟩ _ (before_label s) hready' b s'' hrun
  refine ⟨o, allocate ⟨F, T, D, H⟩ (l := ⟨s.labelCount⟩) rfl rfl ?_ ?_ ?_ ?_ ?_ g p⟩
  · exact fun l hl => .inl hl
  · exact fun l hl => .inl hl
  · exact fun l hl => hl
  · exact fun l hl => .inl hl
  · exact fun hmem => (new_not_mem hready.fits (.inl (by simp [Locals.labels, hmem]))).elim

/-! ### Steps without labels -/

/-- Nothing but instructions, temps, slots and reports was added. -/
structure Calm (s s' : Session) : Prop where
  before : s.Before s'
  labels : s'.labelCount = s.labelCount
  regions : s'.regions = s.regions
  points : s'.resumePoints = s.resumePoints
  epilogue : s'.epilogue = s.epilogue
  placements : s'.placements = s.placements

theorem Calm.of_tables
    (h : (s'.slots, s'.labelCount, s'.regions, s'.resumePoints, s'.epilogue, s'.placements) =
      (s.slots, s.labelCount, s.regions, s.resumePoints, s.epilogue, s.placements)) :
    Calm s s' := by
  simp only [Prod.mk.injEq] at h
  obtain ⟨hslots, hlabels, hregions, hpoints, hepilogue, hplacements⟩ := h
  exact ⟨⟨hlabels.ge, fun _ e he => ⟨e, hslots ▸ he, rfl⟩, fun _ he => hepilogue ▸ he⟩,
    hlabels, hregions, hpoints, hepilogue, hplacements⟩

theorem Calm.trans (h : Calm s s') (h' : Calm s' s'') : Calm s s'' :=
  ⟨h.before.trans h'.before, h'.labels.trans h.labels, h'.regions.trans h.regions,
    h'.points.trans h.points, h'.epilogue.trans h.epilogue, h'.placements.trans h.placements⟩

theorem Calm.settled {Λ : Typing} (h : Calm s s') (hΛ : Settled U s Λ) :
    Settled U s' Λ :=
  ⟨hΛ.all, fun e he => hΛ.exit e (h.epilogue ▸ he)⟩

/-- Nothing was added to the code or to a table of labels. -/
structure Silent (ctx : Context) (s s' : Session) : Prop where
  before : s.Before s'
  inv : ctx.Inv s → ctx.Inv s'
  code : s'.code.toList.map Instr.unfused = s.code.toList.map Instr.unfused
  regions : s'.regions = s.regions
  points : s'.resumePoints = s.resumePoints
  epilogue : s'.epilogue = s.epilogue

theorem Calm.silent (h : Calm s s')
    (hcode : s'.code.toList.map Instr.unfused = s.code.toList.map Instr.unfused) :
    Silent ctx s s' :=
  ⟨h.before, fun hinv => hinv.mono h.before h.epilogue h.placements, hcode, h.regions, h.points,
    h.epilogue⟩

/-- A step that leaves no trace in the code. -/
theorem silent {m : Lower α} {P : α → Prop}
    (h : ∀ a s', m ctx s = .ok a s' → Silent ctx s s' ∧ P a)
    {O : α → Set Cell} (hO : ∀ a, P a → O a ⊆ I) :
    Yields U K ctx (.idle T) s I m O := by
  intro hready a s' hrun
  obtain ⟨hs, hP⟩ := h a s' hrun
  refine ⟨.nil, ⟨by simp [hs.code, Outline.code], by simp [hs.regions, Outline.regions],
    by simp [hs.points, Outline.points], hs.before, hs.inv hready.inv⟩, ?_⟩
  refine ⟨fun n => ⟨by simp [Outline.tally], fun hn => (hn rfl).elim⟩, fun l hl => (by cases hl),
    fun l hl => ?_, fun e he => .inl (hs.epilogue ▸ he), fun z _ => trivial,
    fun z hz hzU Λ hΛ => ?_⟩
  · rcases hl with ⟨i, hi, -⟩ | ⟨p, hp, -⟩
    · cases hi
    · cases hp
  · exact ⟨Λ, fun _ _ _ _ => rfl, ⟨hΛ.all, fun e he => hΛ.exit e (hs.epilogue ▸ he)⟩, trivial,
      fun A hI hK => ⟨hK, (hO a hP).trans hI⟩⟩

theorem quiet {m : Lower α} {P : α → Prop}
    (h : ∀ a s', m ctx s = .ok a s' → Calm s s' ∧
      s'.code.toList.map Instr.unfused = s.code.toList.map Instr.unfused ∧ P a)
    {O : α → Set Cell} (hO : ∀ a, P a → O a ⊆ I) :
    Yields U K ctx (.idle T) s I m O := by
  refine silent (P := P) (fun a s' hrun => ?_) hO
  obtain ⟨hcalm, hcode, hP⟩ := h a s' hrun
  exact ⟨hcalm.silent hcode, hP⟩

/-- A step that adds one instruction other than a label. -/
theorem single {m : Lower α} {i : α → Instr} {O : α → Set Cell}
    (hrun : ∀ a s', m ctx s = .ok a s' → Calm s s' ∧ s'.code = s.code.push (i a))
    (hfused : ∀ a, (i a).unfused = i a) (hlabel : ∀ a l, i a ≠ .label l)
    (hnames : ∀ a, ∀ l ∈ (i a).labels, l ∈ ctx.labels ∨ l ∈ T.all.map Prod.fst ∨
      ∃ e, s.epilogue = some e ∧ e.label = l)
    (hlegal : ctx.Inv s → ∀ a z, s.Before z →
      (i a).Legal ctx.function z (Locals.jumps (.idle T) ctx []))
    (hflow : ∀ a z Λ A, s.Before z → z.Exempts U → TypedFor U K ctx T s Λ → I ⊆ A → K ⊆ A →
      Flow.Step U Λ A (i a) ∧ K ⊆ Flow.after Λ A (i a) ∧ O a ⊆ Flow.after Λ A (i a)) :
    Yields U K ctx (.idle T) s I m O := by
  intro hready a s' h
  obtain ⟨hcalm, hcode⟩ := hrun a s' h
  have htops : (Item.instr (i a)).tops = [] := by
    unfold Item.tops
    split
    · exact (hlabel a _ (Item.instr.inj ‹Item.instr _ = _›)).elim
    · rfl
  have htally : ∀ n, (Item.instr (i a)).tally n = 0 := by
    intro n
    unfold Item.tally
    split
    · exact (hlabel a _ (Item.instr.inj ‹Item.instr _ = _›)).elim
    · simp_all
    · rfl
  refine ⟨.single (.instr (i a)), ⟨?_, ?_, ?_, hcalm.before,
    hready.inv.mono hcalm.before hcalm.epilogue hcalm.placements⟩, ?_⟩
  · simp [hcode, hfused, Outline.single, Outline.code, Item.code]
  · simp [hcalm.regions, Outline.single, Outline.regions]
  · simp [hcalm.points, Outline.single, Outline.points, Item.points]
  refine ⟨fun n => by simp [Outline.single, Outline.tally, htally], fun l hl => (by cases hl),
    fun l hl => ?_, fun e he => .inl (hcalm.epilogue ▸ he), fun z hz => ⟨?_, trivial⟩,
    fun z hz hzU Λ hΛ => ?_⟩
  · rcases hl with ⟨j, hj, hl⟩ | ⟨p, hp, -⟩
    · obtain rfl : j = i a := by simpa [Outline.single, Outline.code, Item.code] using hj
      rcases hnames a l hl with h | h | ⟨e, he, hl⟩
      · exact .inl h
      · exact .inr (.inl (by simpa [Locals.labels] using h))
      · exact .inr (.inr (.inr (.inr ⟨e, hcalm.epilogue ▸ he, hl⟩)))
    · simp [Outline.single, Outline.points, Item.points] at hp
  · rw [Outline.single, Outline.tops, htops]
    exact hlegal hready.inv a z (hcalm.before.trans hz)
  · refine ⟨Λ, fun _ _ _ _ => rfl, hcalm.settled hΛ.toSettled, ⟨by simp [Item.points], trivial⟩,
      fun A hI hK => ?_⟩
    obtain ⟨hstep, hK', hO⟩ := hflow a z Λ A (hcalm.before.trans hz) hzU hΛ hI hK
    exact ⟨⟨hK, hstep, hK'⟩, hO⟩

/-! ### Computations -/

theorem pure {a : α} {O : α → Set Cell} (hO : O a ⊆ I) :
    Yields U K ctx (.idle T) s I (Pure.pure a) O := by
  refine quiet (P := (· = a)) (fun b s' h => ?_) (fun b hb => hb ▸ hO)
  obtain ⟨rfl, rfl⟩ : a = b ∧ s = s' := by simpa [Pure.pure, ReaderT.pure, EStateM.pure] using h
  exact ⟨.of_tables rfl, rfl, rfl⟩

theorem read_bind {f : Context → Lower β} {O : β → Set Cell}
    (h : Yields U K ctx L s I (f ctx) O) : Yields U K ctx L s I (read >>= f) O :=
  h

theorem get_bind {f : Session → Lower β} {O : β → Set Cell}
    (h : Yields U K ctx L s I (f s) O) : Yields U K ctx L s I (get >>= f) O :=
  h

/-- A change of the session that touches neither the code nor a table that matters for it. -/
theorem modify {g : Session → Session} (hcalm : Calm s (g s)) (hcode : (g s).code = s.code) :
    Keeps U K ctx T s I (modify g : Lower PUnit) := by
  refine quiet (P := fun _ => True) (fun a s' h => ?_) (fun _ _ => subset_rfl)
  cases h
  exact ⟨hcalm, by simp only [hcode], trivial⟩

theorem decline {reason : Decline} {O : α → Set Cell} :
    Yields U K ctx L s I (Lower.decline reason) O :=
  of_fails fun _ _ h => by cases h

theorem define_ok (h : Lower.define storage op ctx s = .ok t s') :
    Calm s s' ∧ s'.code = s.code.push (.define t op) := by
  cases h
  exact ⟨.of_tables rfl, rfl⟩

/-- A step whose trace is the definition of a temp by an operation that reads what is available, or
a variable. -/
theorem defines {m : Lower α} {t : α → Temp} (hop : op.Legal)
    (hrun : ∀ a s', m ctx s = .ok a s' → Calm s s' ∧ s'.code = s.code.push (.define (t a) op))
    (hreads : ∀ z, s.Before z → z.Exempts U → ∀ c ∈ op.reads, c ∈ I ∪ K) :
    Yields U K ctx (.idle T) s I m fun a => insert (.temp (t a)) I := by
  refine single (i := fun a => .define (t a) op) hrun (fun a => ?_) (by simp)
    (by simp [Instr.labels, Instr.successors]) (fun _ _ _ _ => hop)
    (fun a z Λ A hz hzU _ hI hK => ?_)
  · cases op <;> first | rfl | exact hop.elim
  · refine ⟨⟨fun c hc => Set.union_subset hI hK (hreads z hz hzU c hc), by simp [Instr.successors],
      by simp⟩, hK.trans Set.subset_union_left, ?_⟩
    rintro c (rfl | hc)
    · exact .inr (by simp [Instr.writes])
    · exact .inl (hI hc)

/-- Defining a temp by an operation that reads what is available, or a variable. -/
theorem defineFrom (hop : op.Legal)
    (hreads : ∀ z, s.Before z → z.Exempts U → ∀ c ∈ op.reads, c ∈ I ∪ K) :
    YieldsTemp U K ctx T s I (Lower.define storage op) :=
  defines hop (fun _ _ h => define_ok h) hreads

/-- Defining a temp. -/
theorem define (hop : op.Legal) (hreads : ∀ c ∈ op.reads, c ∈ I) :
    YieldsTemp U K ctx T s I (Lower.define storage op) :=
  defineFrom hop fun _ _ _ c hc => .inl (hreads c hc)

/-- Defining a temp that was allocated before. -/
theorem emitDefine (hop : op.Legal) (hreads : ∀ c ∈ op.reads, c ∈ I) :
    Yields U K ctx (.idle T) s I (Lower.emit (.define t op)) fun _ => insert (.temp t) I := by
  refine defines (t := fun _ => t) hop (fun _ s' h => ?_) fun _ _ _ c hc => .inl (hreads c hc)
  cases h
  exact ⟨.of_tables rfl, rfl⟩

theorem freshTemp : Keeps U K ctx T s I (Lower.freshTemp storage) := by
  refine quiet (P := fun _ => True) (fun _ s' h => ?_) fun _ _ => subset_rfl
  cases h
  exact ⟨.of_tables rfl, rfl, trivial⟩

/-- An effect. -/
theorem perform {effect : Effect} (hreads : ∀ t ∈ effect.uses, .temp t ∈ I) :
    Keeps U K ctx T s I (Lower.perform effect) := by
  refine single (i := fun _ => .perform effect) (fun t s' h => ?_) (fun _ => rfl) (by simp)
    (by simp [Instr.labels, Instr.successors]) (fun _ _ _ _ => trivial) (fun t _ Λ A _ _ _ hI hK => ?_)
  · cases h
    exact ⟨.of_tables rfl, rfl⟩
  · refine ⟨⟨fun c hc => ?_, by simp [Instr.successors], by simp⟩,
      hK.trans Set.subset_union_left, fun c hc => .inl (hI hc)⟩
    obtain ⟨t, ht, rfl⟩ := List.mem_map.1 hc
    exact hI (hreads t ht)

/-- Storing into a slot. -/
theorem performStore {slot : Slot} {value : Temp} (hvalue : .temp value ∈ I) :
    Yields U K ctx (.idle T) s I (Lower.perform (.storeSlot slot value))
      fun _ => insert (.slot slot) I := by
  refine single (i := fun _ => .perform (.storeSlot slot value)) (fun t s' h => ?_) (fun _ => rfl)
    (by simp) (by simp [Instr.labels, Instr.successors]) (fun _ _ _ _ => trivial)
    (fun t _ Λ A _ _ _ hI hK => ?_)
  · cases h
    exact ⟨.of_tables rfl, rfl⟩
  · refine ⟨⟨fun c hc => ?_, by simp [Instr.successors], by simp⟩,
      hK.trans Set.subset_union_left, ?_⟩
    · obtain rfl : c = .temp value := by
        simpa [Instr.reads, Instr.uses, Effect.uses] using hc
      exact hI hvalue
    · rintro c (rfl | hc)
      · exact .inr (by simp [Instr.writes])
      · exact .inl (hI hc)

/-! ### Jumps -/

/-- An instruction that control does not fall through and that names no label. -/
theorem stop {i : Instr} (huses : i.uses = [t]) (ht : .temp t ∈ I)
    (hi : i = .raise t ∨ (i = .ret t ∨ i = .asyncReject t) ∧
      (Jumps.ofFrames ctx.frames).isNative = false) :
    Yields U K ctx (.idle T) s I (Lower.emit i) fun _ => Set.univ := by
  have hnames : i.labels = [] ∧ i.successors = [] := by
    rcases hi with rfl | ⟨rfl | rfl, -⟩ <;> exact ⟨rfl, rfl⟩
  refine single (i := fun _ => i) (fun _ s' h => ?_) (fun _ => ?_) (fun _ l => ?_)
    (by simp [hnames]) (fun _ _ z _ => ?_) (fun _ _ Λ A _ _ _ hI hK => ?_)
  · cases h
    exact ⟨.of_tables rfl, rfl⟩
  · rcases hi with rfl | ⟨rfl | rfl, -⟩ <;> rfl
  · rcases hi with rfl | ⟨rfl | rfl, -⟩ <;> simp
  · rcases hi with rfl | ⟨rfl | rfl, h⟩
    · trivial
    · exact h
    · exact h
  · have hafter : Flow.after Λ A i = Set.univ := by
      rcases hi with rfl | ⟨rfl | rfl, -⟩ <;> rfl
    have hreads : i.reads = [.temp t] := by
      rcases hi with rfl | ⟨rfl | rfl, -⟩ <;> rfl
    rw [hafter]
    refine ⟨⟨fun c hc => ?_, by simp [hnames], ?_⟩, Set.subset_univ _, Set.subset_univ _⟩
    · obtain rfl : c = .temp t := by simpa [hreads] using hc
      exact hI ht
    · rcases hi with rfl | ⟨rfl | rfl, -⟩ <;> simp

variable {l : Label}
variable {frame : Frame} {op : Operation} {o : Outline} {s' s'' : Session} {O : Set Cell}
  {storage : Storage} {t : Temp}

theorem mem_all_of_near (hl : (l, X) ∈ T.near) : (l, X) ∈ T.all :=
  List.mem_append_left _ hl

theorem mem_labels_of_near (hl : (l, X) ∈ T.near) : l ∈ T.all.map Prod.fst :=
  List.mem_map.2 ⟨(l, X), mem_all_of_near hl, rfl⟩

theorem mem_jumps_of_near (hl : (l, X) ∈ T.near) :
    l ∈ (Locals.jumps (.idle T) ctx []).branch :=
  .inr (by simpa using ⟨X, hl⟩)

/-- An instruction that reads nothing and goes to one label. -/
theorem jump {i : Instr} (hi : i = .branch l ∨ i = .leave l ∨ i = .dispatch [] l)
    (hname : l ∈ ctx.labels ∨ l ∈ T.all.map Prod.fst ∨ ∃ e, s.epilogue = some e ∧ e.label = l)
    (hlegal : ∀ z, s.Before z → i.Legal ctx.function z (Locals.jumps (.idle T) ctx []))
    (hflow : ∀ Λ A, TypedFor U K ctx T s Λ → I ⊆ A → K ⊆ A → Λ l ⊆ A) :
    Yields U K ctx (.idle T) s I (Lower.emit i) fun _ => Set.univ := by
  have hlabels : i.labels = [l] ∧ i.successors = [l] ∧ i.reads = [] := by
    rcases hi with rfl | rfl | rfl <;> exact ⟨rfl, rfl, rfl⟩
  have hafter : ∀ Λ A, Flow.after Λ A i = Set.univ := by
    rcases hi with rfl | rfl | rfl <;> exact fun _ _ => rfl
  have hlabel : ∀ l', i ≠ .label l' := by rcases hi with rfl | rfl | rfl <;> simp
  refine single (i := fun _ => i) (fun _ s' h => ?_) (fun _ => ?_) (fun _ => hlabel)
    (by simpa [hlabels] using hname) (fun _ _ => hlegal) (fun _ _ Λ A _ _ hΛ hI hK => ?_)
  · cases h
    exact ⟨.of_tables rfl, rfl⟩
  · rcases hi with rfl | rfl | rfl <;> rfl
  · rw [hafter]
    exact ⟨⟨by simp [hlabels], by simpa [hlabels] using hflow Λ A hΛ hI hK, by rcases hi with rfl | rfl | rfl <;> simp⟩,
      Set.subset_univ _, Set.subset_univ _⟩

/-- Branching to a label of the construct. -/
theorem branch (h : (l, X) ∈ T.near ∧ X ⊆ I) :
    Yields U K ctx (.idle T) s I (Lower.branch l) fun _ => Set.univ :=
  jump (.inl rfl) (.inr (.inl (mem_labels_of_near h.1))) (fun _ _ => mem_jumps_of_near h.1)
    fun _ _ hΛ hI _ => (hΛ.typed _ (mem_all_of_near h.1)).trans_subset (h.2.trans hI)

/-- Branching to a label of an open frame. -/
theorem branchOut (hl : l ∈ (Jumps.ofFrames ctx.frames).branch) (hmem : l ∈ ctx.labels) :
    Yields U K ctx (.idle T) s I (Lower.branch l) fun _ => Set.univ :=
  jump (.inl rfl) (.inl hmem) (fun _ _ => .inl hl) fun _ _ hΛ _ hK => (hΛ.frames _ hmem).trans hK

/-- Leaving to a label of the construct. -/
theorem leave (h : (l, X) ∈ T.all ∧ X ⊆ I) :
    Yields U K ctx (.idle T) s I (Lower.emit (.leave l)) fun _ => Set.univ := by
  obtain ⟨hl, hX⟩ := h
  refine jump (.inr (.inl rfl)) (.inr (.inl (List.mem_map.2 ⟨(l, X), hl, rfl⟩))) (fun _ _ => ?_)
    fun _ _ hΛ hI _ => (hΛ.typed _ hl).trans_subset (hX.trans hI)
  rcases List.mem_append.1 hl with hl | hl
  · exact .inl (mem_jumps_of_near hl)
  · exact .inr (.inl (.inr (by simpa using ⟨X, hl⟩)))

/-- Leaving to a label of an open frame. -/
theorem leaveOut
    (hl : l ∈ (Jumps.ofFrames ctx.frames).branch ∨ l ∈ (Jumps.ofFrames ctx.frames).leave)
    (hmem : l ∈ ctx.labels) :
    Yields U K ctx (.idle T) s I (Lower.emit (.leave l)) fun _ => Set.univ := by
  refine jump (.inr (.inl rfl)) (.inl hmem) (fun _ _ => ?_) fun _ _ hΛ _ hK => (hΛ.frames _ hmem).trans hK
  exact hl.elim (fun hl => .inl (.inl hl)) fun hl => .inr (.inl (.inl hl))

/-- Leaving to the shared exit, with the value to return in its slot. -/
theorem leaveToExit {e : ReturnEpilogue} (hU : U ⊆ K) (he : s.epilogue = some e)
    (hexit : (Jumps.ofFrames ctx.frames).mayExit) (hslot : .slot e.slot ∈ I) :
    Yields U K ctx (.idle T) s I (Lower.emit (.leave e.label)) fun _ => Set.univ :=
  jump (.inr (.inl rfl)) (.inr (.inr ⟨e, he, rfl⟩))
    (fun _ hz => .inr (.inr ⟨hexit, e, hz.epilogue e he, rfl⟩))
    fun _ _ hΛ hI hK => (hΛ.exit e he).trans_subset (Set.insert_subset (hI hslot) (hU.trans hK))

/-- Branching on a condition to a label of the construct. -/
theorem branchIf {expected : Bool} {condition : Temp}
    (h : (l, X) ∈ T.near ∧ X ⊆ I ∧ .temp condition ∈ I) :
    Keeps U K ctx T s I (Lower.branchIf expected condition l) := by
  obtain ⟨hl, hX, hcondition⟩ := h
  refine single (i := fun _ => .branchIf expected condition l) (fun _ s' h => ?_) (fun _ => rfl)
    (by simp) (fun _ l' hl' => ?_) (fun _ _ z _ => mem_jumps_of_near hl)
    (fun _ _ Λ A _ _ hΛ hI hK => ?_)
  · cases h
    exact ⟨.of_tables rfl, rfl⟩
  · obtain rfl : l' = l := by simpa [Instr.labels, Instr.successors] using hl'
    exact .inr (.inl (mem_labels_of_near hl))
  · refine ⟨⟨fun c hc => ?_, fun l' hl' => ?_, by simp⟩, hK.trans Set.subset_union_left,
      fun c hc => .inl (hI hc)⟩
    · obtain rfl : c = .temp condition := by simpa [Instr.reads, Instr.uses] using hc
      exact hI hcondition
    · obtain rfl : l' = l := by simpa [Instr.successors] using hl'
      exact (hΛ.typed _ (mem_all_of_near hl)).trans_subset (hX.trans hI)

/-! ### Placing labels -/

theorem due_perm {D' : List Label} {m : Lower α} {O : α → Set Cell} (hperm : D.Perm D')
    (h : Yields U K ctx ⟨F, T, D, H⟩ s I m O) : Yields U K ctx ⟨F, T, D', H⟩ s I m O := by
  intro hready a s' hrun
  have hfits := hready.fits
  have hmem : ∀ l, l ∈ D ∨ l ∈ H ↔ l ∈ D' ∨ l ∈ H := fun l => by rw [hperm.mem_iff]
  have hclaims : ∀ l, l ∈ Locals.labels ⟨F, T, D, H⟩ ∨ l ∈ Locals.unplaced ⟨F, T, D, H⟩ →
      l ∈ Locals.labels ⟨F, T, D', H⟩ ∨ l ∈ Locals.unplaced ⟨F, T, D', H⟩ := by
    intro l hl
    simpa only [Locals.labels, Locals.unplaced, List.mem_append, hmem] using hl
  obtain ⟨o, g, p⟩ := h
    { hready with
      fits :=
        { bound := fun l hl => hfits.bound l (hclaims l hl)
          apart := hfits.apart
          exit := fun e he l hl => hfits.exit e he l (hclaims l hl)
          nodup := (hperm.append_right H).nodup_iff.2 hfits.nodup
          free := hfits.free
          typed := hfits.typed
          near := fun p hp hl => hfits.near p hp (hperm.mem_iff.1 hl)
          due := fun l hl => hfits.due l (hperm.mem_iff.1 hl)
          hidden := hfits.hidden } } a s' hrun
  refine ⟨o, g,
    { tally := fun n => ⟨(p.tally n).1, fun hn => ?_⟩
      due := fun l hl => p.due l (hperm.mem_iff.2 hl)
      names := p.names
      exit := p.exit
      legal := p.legal
      flow := p.flow }⟩
  have := (p.tally n).2 hn
  simpa only [Locals.unplaced, List.mem_append, hmem] using this

/-- Placing a label of the construct. Behind it, exactly what it promises is available. -/
theorem place (h : (l, X) ∈ T.near ∧ X ⊆ I) :
    Yields U K ctx ⟨[], T, [l], []⟩ s I (Lower.place l) fun _ => X := by
  obtain ⟨hl, hX⟩ := h
  intro hready a s' h
  cases h
  have hcalm : Calm s { s with code := s.code.push (.label l) } :=
    .of_tables rfl
  refine ⟨.single (.instr (.label l)), ⟨?_, ?_, ?_, hcalm.before,
    hready.inv.mono hcalm.before rfl rfl⟩, ?_⟩
  · simp [Instr.unfused, Outline.single, Outline.code, Item.code]
  · simp [Outline.single, Outline.regions]
  · simp [Outline.single, Outline.points, Item.points]
  refine ⟨fun n => ?_, fun l' hl' => ?_, fun l' hl' => ?_, fun e he => .inl he,
    fun z hz => ⟨trivial, trivial⟩, fun z hz hzU Λ hΛ => ?_⟩
  · simp only [Outline.single, Outline.tally, Item.tally, Locals.unplaced]
    split <;> rename_i hn
    · subst hn
      exact ⟨by simp, fun _ => .inr (by simp)⟩
    · simp
  · simpa [Outline.single, Outline.tops, Item.tops] using hl'
  · rcases hl' with ⟨j, hj, hl'⟩ | ⟨p, hp, -⟩
    · obtain rfl : j = .label l := by simpa [Outline.single, Outline.code, Item.code] using hj
      obtain rfl : l' = l := by simpa [Instr.labels, Instr.successors] using hl'
      exact .inr (.inl (mem_labels_of_near hl))
    · simp [Outline.single, Outline.points, Item.points] at hp
  · refine ⟨Λ, fun _ _ _ _ => rfl, hcalm.settled hΛ.toSettled, ⟨by simp [Item.points], trivial⟩,
      fun A hI hK => ?_⟩
    have hΛl : Λ l = X := hΛ.typed _ (mem_all_of_near hl)
    simp only [Outline.single, Outline.code, Item.code, List.append_nil, Flow.out_cons,
      Flow.out_nil, Flow.after, hΛl]
    refine ⟨⟨hK, ⟨by simp [Instr.reads, Instr.uses], fun l' hl' => ?_, by simp⟩, ?_⟩, subset_rfl⟩
    · obtain rfl : l' = l := by simpa [Instr.successors] using hl'
      exact hΛl.trans_subset (hX.trans hI)
    · simp only [Flow.Ok, Flow.after, hΛl]
      exact hready.fits.near _ hl (List.mem_cons_self ..)

/-- Placing a label of the construct and going on. -/
theorem placeThen (D₁ : List Label) (l : Label) (D₂ : List Label) {f : Unit → Lower β}
    {O : β → Set Cell} (hl : (l, X) ∈ T.near ∧ X ⊆ I)
    (h : ∀ {s'} {_ : s.Before s'}, Yields U K ctx ⟨F, T, D₁ ++ D₂, H⟩ s' X (f ()) O) :
    Yields U K ctx ⟨F, T, D₁ ++ l :: D₂, H⟩ s I (Lower.place l >>= f) O := by
  refine due_perm (D := l :: (D₁ ++ D₂)) List.perm_middle.symm ?_
  exact seq [l] [] (by simpa using ⟨X, mem_all_of_near hl.1⟩) (place hl) fun _ s' _ hs => @h s' hs

/-! ### Frames -/

theorem inv_push :
    Context.Inv { ctx with frames := frame :: ctx.frames } s ↔
      ctx.Inv s ∧ ∀ l ∈ frame.labels, l.index < s.labelCount := by
  constructor
  · intro h
    exact ⟨⟨fun l hl => h.frames l (List.mem_append_right _ hl), h.exit, h.placements⟩,
      fun l hl => h.frames l (List.mem_append_left _ hl)⟩
  · rintro ⟨h, hframe⟩
    refine ⟨fun l hl => ?_, h.exit, h.placements⟩
    rcases List.mem_append.1 hl with hl | hl
    · exact hframe l hl
    · exact h.frames l hl

/-- Code inside a frame that directs jumps to labels of the construct. What these labels promise is
available throughout the code. The code may place labels of the construct itself. -/
theorem within {m : Lower α} {O : α → Set Cell} {K' : Set Cell}
    (hnative : frame.isNative = false) (hK : K ⊆ K') (hI : K' ⊆ I)
    (hpause : ctx.mayPause = true → K' ⊆ U)
    (hlabels : ∀ l ∈ frame.labels, ∃ X, (l, X) ∈ T.near ∧ X ⊆ K')
    (hdue : ∀ p ∈ T.near, p.1 ∈ D → K' ⊆ p.2)
    (h : Yields U K' { ctx with frames := frame :: ctx.frames } ⟨[], T, D, []⟩ s I m O) :
    Yields U K ctx ⟨[], T, D, []⟩ s I (Lower.within frame m) fun a => O a ∪ K' := by
  intro hready a s' hrun
  have hmem : ∀ l ∈ frame.labels, l ∈ T.all.map Prod.fst := by
    intro l hl
    obtain ⟨X, hX, -⟩ := hlabels l hl
    exact mem_labels_of_near hX
  have hbound : ∀ l ∈ frame.labels, l.index < s.labelCount := fun l hl =>
    hready.fits.bound l (.inl (by simpa [Locals.labels] using hmem l hl))
  have hpush : Context.mayPause { ctx with frames := frame :: ctx.frames } = ctx.mayPause := by
    simp [Context.mayPause, hnative, Context.isResumable]
  obtain ⟨o, g, p⟩ := h
    { inv := inv_push.2 ⟨hready.inv, hbound⟩
      fits := { hready.fits with apart := by simp, near := hdue }
      base := hready.base.trans hK
      pause := hpush ▸ hpause
      blocks := fun q hq => (hready.blocks q hq).trans hK } a s' hrun
  have hlabels' : ∀ l ∈ Context.labels { ctx with frames := frame :: ctx.frames },
      l ∈ T.all.map Prod.fst ∨ l ∈ ctx.labels := by
    intro l hl
    exact (List.mem_append.1 hl).imp_left (hmem l)
  refine ⟨o, ⟨g.code, g.regions, g.points, g.before, (inv_push.1 g.inv).1⟩, ?_⟩
  refine ⟨p.tally, p.due, fun l hl => ?_, p.exit, fun z hz => (p.legal z hz).mono ?_,
    fun z hz hzU Λ hΛ => ?_⟩
  · rcases p.names l hl with h | h
    · rcases hlabels' l h with h | h
      · exact .inr (.inl (by simpa [Locals.labels] using h))
      · exact .inl h
    · exact .inr h
  · have henter : Jumps.ofFrames (frame :: ctx.frames)
        = (Jumps.ofFrames ctx.frames).withLabels frame.labels := by
      cases frame <;> first | rfl | simp [Frame.isNative] at hnative
    show Jumps.Le (((Jumps.ofFrames (frame :: ctx.frames)).withLeaves _).withLabels _) _
    rw [henter]
    refine ⟨?_, fun l hl => .inl hl, rfl, rfl⟩
    rintro l ((hl | hl) | hl)
    · exact .inl hl
    · obtain ⟨X, hX, -⟩ := hlabels l hl
      exact .inr (by simpa using .inl ⟨X, hX⟩)
    · exact .inr hl
  · have hΛ' : TypedFor U K' { ctx with frames := frame :: ctx.frames } T s Λ := by
      refine ⟨hΛ.toSettled, fun l hl => ?_, hΛ.typed⟩
      rcases List.mem_append.1 hl with hl | hl
      · obtain ⟨X, hX, hXK⟩ := hlabels l hl
        exact (hΛ.typed _ (mem_all_of_near hX)).trans_subset hXK
      · exact (hΛ.frames l hl).trans hK
    obtain ⟨Λ', hagree, hset, hcert, hok⟩ := p.flow z hz hzU Λ hΛ'
    refine ⟨Λ', hagree, hset, hcert, fun A hA hKA => ?_⟩
    obtain ⟨hok, hO⟩ := hok A hA (hI.trans hA)
    exact ⟨hok.mono subset_rfl hK, Set.union_subset hO hok.floor_le_out⟩

end ScriptLowering.Lower.Yields
