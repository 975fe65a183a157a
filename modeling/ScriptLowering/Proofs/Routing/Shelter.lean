import ScriptLowering.Proofs.Routing.Parts

/-!
# Exceptions that leave a routed region

In a routed region no exception is handed to the machine, except from inside a protected region that
the code in the routed region has itself: every `raise` and every rejection of the function's
promise that is emitted in there stands between the label at which the range of such a region starts
and the label at which its handler ends.
-/

namespace ScriptLowering

/-- Behind `start`, the position is in the range or the handler of the region. -/
def ExceptionRegion.Encloses (r : ExceptionRegion) (code : List Instr) (start n : Nat) : Prop :=
  ∃ m k, start ≤ m ∧ m < n ∧ n < k ∧ code[m]? = some (.label r.tryStart) ∧
    code[k]? = some (.label r.handlerEnd)

namespace Session

/-- What was emitted between the sessions throws out of protected regions of its own only. -/
def Sheltered (s s' : Session) : Prop :=
  ∀ n i, s.code.size ≤ n → s'.code.toList[n]? = some i → i.throwsOut = true →
    ∃ r ∈ s'.regions.toList, r.Encloses s'.code.toList s.code.size n

/-- Code and regions are added, and the form of an addition may change. -/
structure Appends (s s' : Session) : Prop where
  code : s.code.toList.map Instr.unfused <+: s'.code.toList.map Instr.unfused
  regions : s.regions.toList <+: s'.regions.toList

variable {s s₁ s' : Session} {i : Instr}

theorem Appends.refl (s : Session) : s.Appends s :=
  ⟨List.prefix_refl _, List.prefix_refl _⟩

theorem Appends.trans (h : s.Appends s₁) (h' : s₁.Appends s') : s.Appends s' :=
  ⟨h.code.trans h'.code, h.regions.trans h'.regions⟩

theorem Appends.size_le (h : s.Appends s') : s.code.size ≤ s'.code.size := by
  simpa using h.code.length_le

/-- Instructions other than additions stay as they are. -/
theorem Appends.getElem?_iff (h : s.Appends s') {n : Nat} (hn : n < s.code.size)
    (hi : i.isAddition = false) : s'.code.toList[n]? = some i ↔ s.code.toList[n]? = some i := by
  obtain ⟨rest, hrest⟩ := h.code
  have hsame : (s'.code.toList[n]?).map Instr.unfused = (s.code.toList[n]?).map Instr.unfused := by
    rw [← List.getElem?_map, ← List.getElem?_map, ← hrest,
      List.getElem?_append_left (by simpa using hn)]
  constructor
  · intro hget
    rw [hget] at hsame
    obtain ⟨j, hj, heq⟩ := Option.map_eq_some_iff.1 hsame.symm
    rw [hj, Instr.eq_of_unfused heq hi]
  · intro hget
    rw [hget] at hsame
    obtain ⟨j, hj, heq⟩ := Option.map_eq_some_iff.1 hsame
    rw [hj, Instr.eq_of_unfused heq hi]

theorem Appends.push (hcode : s'.code = s.code.push i) (hregions : s'.regions = s.regions) :
    s.Appends s' :=
  ⟨by simp [hcode], hregions ▸ List.prefix_refl _⟩

theorem Sheltered.refl (s : Session) : s.Sheltered s := by
  intro n i hn hi
  rw [List.getElem?_eq_none (by simpa using hn)] at hi
  cases hi

theorem Sheltered.push (hcode : s'.code = s.code.push i) (hi : i.throwsOut = false) :
    s.Sheltered s' := by
  intro n j hn hj hthrows
  have hlt : n < s.code.size + 1 := by simpa [hcode] using (List.getElem?_eq_some_iff.1 hj).1
  obtain rfl : n = s.code.size := by omega
  obtain rfl : i = j := by simpa [hcode] using hj
  cases hi.symm.trans hthrows

theorem Sheltered.trans (h : s.Sheltered s₁) (h' : s₁.Sheltered s')
    (hsize : s.code.size ≤ s₁.code.size) (hext : s₁.Appends s') : s.Sheltered s' := by
  intro n i hn hi hthrows
  have hplain : i.isAddition = false := by
    cases i <;> first | rfl | cases hthrows
  by_cases hold : n < s₁.code.size
  · obtain ⟨r, hr, m, k, hm, hmn, hnk, hstart, hend⟩ :=
      h n i hn ((hext.getElem?_iff hold hplain).1 hi) hthrows
    have hk : k < s₁.code.size := by simpa using (List.getElem?_eq_some_iff.1 hend).1
    exact ⟨r, hext.regions.subset hr, m, k, hm, hmn, hnk,
      (hext.getElem?_iff (hmn.trans hold) rfl).2 hstart, (hext.getElem?_iff hk rfl).2 hend⟩
  · obtain ⟨r, hr, m, k, hm, hrest⟩ := h' n i (Nat.le_of_not_lt hold) hi hthrows
    exact ⟨r, hr, m, k, hsize.trans hm, hrest⟩

end Session

/-- The innermost region around is a routed one. -/
def Context.IsRouted (ctx : Context) : Prop :=
  ∃ route, Frame.innermostRegion? ctx.frames = some (.routed route)

/-- In routed regions, sheltered code is emitted. -/
def shelter : Discipline where
  leads ctx s s' := s.Appends s' ∧ (ctx.IsRouted → s.Sheltered s')
  refl _ s := ⟨.refl s, fun _ => .refl s⟩
  trans h h' := ⟨h.1.trans h'.1, fun hctx => (h.2 hctx).trans (h'.2 hctx) h.1.size_le h'.1⟩

namespace Lower

variable {ctx : Context} {s s₁ s' : Session} {i : Instr} {t u : Temp}
variable {frame : Frame}

theorem shelter_of_push (hcode : s'.code = s.code.push i) (hregions : s'.regions = s.regions)
    (hi : i.throwsOut = false) : shelter.leads ctx s s' :=
  ⟨.push hcode hregions, fun _ => .push hcode hi⟩

theorem shelter_of_same (hcode : s'.code = s.code) (hregions : s'.regions = s.regions) :
    shelter.leads ctx s s' := by
  refine ⟨⟨hcode ▸ List.prefix_refl _, hregions ▸ List.prefix_refl _⟩, fun _ n j hn hj => ?_⟩
  rw [hcode, List.getElem?_eq_none (by simpa using hn)] at hj
  cases hj

/-- Fusing an addition with a conversion changes the form of the addition only. -/
theorem fuseAddition_shelter {left right : Temp} (hadded : justAdded? s t = some (left, right)) :
    shelter.leads ctx s (fuseAddition t left right s) := by
  obtain ⟨before, hcode⟩ := justAdded?_eq_some hadded
  have hsize : (fuseAddition t left right s).code.size = s.code.size := by
    simp [fuseAddition, hcode]
  refine ⟨⟨?_, List.prefix_refl _⟩, fun _ n i hn hi => ?_⟩
  · simp [fuseAddition, hcode, Instr.unfused]
  · rw [List.getElem?_eq_none (by simpa [hsize] using hn)] at hi
    cases hi

/-- What is added inside of a frame that is no protected region is sheltered outside of it as
well. -/
theorem shelter_within (hframe : frame.isNative = false)
    (h : shelter.leads { ctx with frames := frame :: ctx.frames } s s') : shelter.leads ctx
    s s' := by
  refine ⟨h.1, fun hrouted => h.2 ?_⟩
  obtain ⟨route, hroute⟩ := hrouted
  cases frame with
  | routed inner => exact ⟨inner, rfl⟩
  | guarded | finallyHandler => cases hframe
  | _ => exact ⟨route, hroute⟩

theorem shelter_steady : shelter.Steady where
  within := shelter_within
  withinBlock h := h
  aside _ h := shelter_of_same h.code h.regions
  allocate := shelter_of_same rfl rfl
  fresh := trivial
  emit {_ _ i} hi := shelter_of_push rfl rfl (by cases i <;> first | rfl | cases hi)
  suspend _ := shelter_of_push rfl rfl rfl
  fuse := fuseAddition_shelter
  resumePoint := shelter_of_same rfl rfl
  entered h := absurd rfl h
  declined _ _ := trivial
  tree _ := nofun
  resumable _ := nofun
  closed := nofun
  dangling _ _ := trivial

theorem protect_shelter {r : ExceptionRegion} {inner : List Frame} {range handler : Lower Unit}
    (hrange : shelter.Keeps [] (fun _ => []) range)
    (hhandler : shelter.Keeps [] (fun _ => []) handler)
    (h : protect r inner frame range handler ctx s = .ok () s') : shelter.leads ctx s s' := by
  obtain ⟨_, s₂, h₂, h⟩ := bind_ok h
  obtain ⟨_, s₁, h₁, h₂⟩ := bind_ok h₂
  obtain ⟨_, s₃, h₃, h⟩ := bind_ok h
  obtain ⟨_, s₄, h₄, h⟩ := bind_ok h
  obtain ⟨_, s₅, h₅, h⟩ := bind_ok h
  cases h
  have hlabel : ∀ {l ctx s s'}, place l ctx s = .ok () s' → s.Appends s' :=
    fun h => ((shelter_steady.emit_keeps (T := []) rfl).ok trivial nofun h).1.1
  have g₁ : s.Appends s₁ := hlabel h₁
  have g₂ : s₁.Appends s₂ := (hrange.ok trivial nofun h₂).1.1
  have g₃ : s₂.Appends s₃ := hlabel h₃
  have g₄ : s₃.Appends s₄ := (hhandler.ok trivial nofun h₄).1.1
  have g₅ : s₄.Appends s₅ := hlabel h₅
  have g₆ : s₅.Appends { s₅ with regions := s₅.regions.push r } :=
    ⟨List.prefix_refl _, by simp⟩
  have hfirst : s₁.code.toList[s.code.size]? = some (.label r.tryStart) := by
    cases h₁
    simp
  have hlast : s₅.code.toList[s₄.code.size]? = some (.label r.handlerEnd) := by
    cases h₅
    simp
  have hsize₁ : s₁.code.size = s.code.size + 1 := by
    cases h₁
    simp
  have hsize₅ : s₅.code.size = s₄.code.size + 1 := by
    cases h₅
    simp
  have hle₁ := (g₂.trans (g₃.trans g₄)).size_le
  refine ⟨g₁.trans (g₂.trans (g₃.trans (g₄.trans (g₅.trans g₆)))), fun _ n i hn hi hthrows => ?_⟩
  have hstart : s₅.code.toList[s.code.size]? = some (.label r.tryStart) :=
    ((g₂.trans (g₃.trans (g₄.trans g₅))).getElem?_iff (by omega) rfl).2 hfirst
  have hn₅ : n < s₅.code.size := by simpa using (List.getElem?_eq_some_iff.1 hi).1
  -- the first and the last position hold labels, and everything else is between them
  have hne : n ≠ s.code.size := by
    rintro rfl
    rw [hstart] at hi
    cases hi
    cases hthrows
  have hne' : n ≠ s₄.code.size := by
    rintro rfl
    rw [hlast] at hi
    cases hi
    cases hthrows
  exact ⟨r, by simp, s.code.size, s₄.code.size, le_rfl, by omega, by omega, hstart, hlast⟩

/-- In a routed region, sheltered code is emitted. -/
theorem shelter_lawful : shelter.Lawful where
  toPlain := shelter_steady.plain
    -- only where the innermost region is no routed one, an exception is thrown out
    (fun ht => shelter_steady.throwValue_keeps ht fun _ hregion =>
      ⟨.push rfl rfl, fun hrouted => absurd hrouted.choose_spec (hregion _)⟩)
    fun _ hrange hhandler => .of_run (fun _ _ _ => trivial) fun _ h =>
      ⟨protect_shelter hrange hhandler h, nofun⟩
  openRoute := fun _ _ => ⟨shelter_of_same rfl rfl, nofun⟩

/-- In a routed region, the code of a block is sheltered. -/
theorem block_sheltered {stmts : List Stmt} (h : lowerBody stmts ctx s = .ok () s')
    (hctx : ctx.IsRouted) : s.Sheltered s' := by
  have := shelter_lawful.simulation
  have hstmts : shelter.simulation.Resolves stmts := Simulation.resolves_of_none rfl rfl stmts
  have hkeeps : shelter.Keeps [] (fun _ => []) (lowerBody stmts) :=
    .of_same (.bind_same (hoist_relates hstmts) fun _ => lowerStmts_relates stmts hstmts _)
  exact (hkeeps.ok trivial nofun h).1.2 hctx

end Lower

end ScriptLowering
