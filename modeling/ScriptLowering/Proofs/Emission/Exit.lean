import Mathlib.Data.List.TakeWhile
import ScriptLowering.Proofs.Emission.Value

/-!
# Exits

A `break`, `continue`, `return` or `throw` looks at the frames that are open. What it finds agrees
with the jumps that are possible there: the frames across which a plain branch is emitted are no
protected regions, and a `leave` crosses no finally handler.
-/

namespace ScriptLowering

variable {frame : Frame} {l : Label} {frames : List Frame}

/-! ### Frames and jumps -/

theorem Frame.labels_eq_nil_of_isNative (h : frame.isNative) :
    frame.labels = [] := by
  cases frame <;> simp_all [Frame.isNative, Frame.labels]

theorem Jumps.ofFrames_cons_of_not_native (h : frame.isNative = false) :
    Jumps.ofFrames (frame :: frames) = (Jumps.ofFrames frames).withLabels frame.labels := by
  cases frame <;> first | rfl | simp [Frame.isNative] at h

theorem Jumps.isNative_ofFrames (frames : List Frame) :
    (Jumps.ofFrames frames).isNative = frames.any Frame.isNative := by
  induction frames with
  | nil => rfl
  | cons frame outer ih =>
    cases frame <;>
      simp [Jumps.ofFrames, Jumps.enter, Jumps.withLabels, Jumps.guarded, Jumps.finalizing,
        Frame.isNative, ih]

theorem Jumps.mayExit_ofFrames
    (h : frames.any Frame.isFinallyHandler = false) : (Jumps.ofFrames frames).mayExit = true := by
  induction frames with
  | nil => rfl
  | cons frame outer ih =>
    cases frame <;>
      simp_all [Jumps.ofFrames, Jumps.enter, Jumps.withLabels, Jumps.guarded,
        Frame.isFinallyHandler]

theorem Jumps.isNative_eq_false (h : ∀ f ∈ frames, f.isNative = false) :
    (Jumps.ofFrames frames).isNative = false := by
  simpa [Jumps.isNative_ofFrames] using h

/-- A frame with no protected region in front of it is reached by a branch. -/
theorem Jumps.mem_branch_of_append {inner outer : List Frame}
    (hinner : ∀ f ∈ inner, f.isNative = false) (hl : l ∈ frame.labels) :
    l ∈ (Jumps.ofFrames (inner ++ frame :: outer)).branch := by
  induction inner with
  | nil =>
    have hnative : frame.isNative = false := by
      cases hn : frame.isNative
      · rfl
      · simp [Frame.labels_eq_nil_of_isNative hn] at hl
    rw [List.nil_append, Jumps.ofFrames_cons_of_not_native hnative]
    exact .inr hl
  | cons f inner ih =>
    rw [List.cons_append, Jumps.ofFrames_cons_of_not_native (hinner f (List.mem_cons_self ..))]
    exact .inl (ih fun g hg => hinner g (.tail _ hg))

/-- A jump across frames reaches the frame behind them: by a branch if no protected region is
crossed, else by a `leave`. -/
theorem Jumps.mem_of_crossing {isTarget : Frame → Bool} {target : Frame} {crossed : Bool}
    (hfind : frames.find? isTarget = some target) (hl : l ∈ target.labels)
    (hcross : Frame.crossing (frames.takeWhile fun f => !isTarget f) = .ok crossed) :
    (crossed = false → l ∈ (Jumps.ofFrames frames).branch) ∧
      (l ∈ (Jumps.ofFrames frames).branch ∨ l ∈ (Jumps.ofFrames frames).leave) := by
  induction frames generalizing crossed with
  | nil => cases hfind
  | cons frame outer ih =>
    by_cases hframe : isTarget frame
    · obtain rfl : frame = target := by simpa [hframe] using hfind
      have hnative : frame.isNative = false := by
        cases hn : frame.isNative
        · rfl
        · simp [Frame.labels_eq_nil_of_isNative hn] at hl
      rw [Jumps.ofFrames_cons_of_not_native hnative]
      exact ⟨fun _ => .inr hl, .inl (.inr hl)⟩
    · rw [List.find?_cons_of_neg (by simpa using hframe)] at hfind
      rw [List.takeWhile_cons_of_pos (by simpa using hframe)] at hcross
      have hpass : ∀ crossed', Frame.crossing (outer.takeWhile fun f => !isTarget f) = .ok crossed' →
          crossed' = crossed → frame.isNative = false →
          (crossed = false → l ∈ (Jumps.ofFrames (frame :: outer)).branch) ∧
            (l ∈ (Jumps.ofFrames (frame :: outer)).branch ∨
              l ∈ (Jumps.ofFrames (frame :: outer)).leave) := by
        rintro crossed' h rfl hnative
        obtain ⟨h₁, h₂⟩ := ih hfind h
        rw [Jumps.ofFrames_cons_of_not_native hnative]
        exact ⟨fun hc => .inl (h₁ hc), h₂.imp_left .inl⟩
      cases frame with
      | guarded =>
        -- the jump has to leave this region, whatever it crosses outside
        cases hout : Frame.crossing (outer.takeWhile fun f => !isTarget f) with
        | error reason => simp [Frame.crossing, hout, Bind.bind, Except.bind] at hcross
        | ok crossed' =>
          have hc : true = crossed := by
            simpa [Frame.crossing, hout, Bind.bind, Except.bind, Pure.pure, Except.pure] using hcross
          subst hc
          obtain ⟨-, h₂⟩ := ih hfind hout
          exact ⟨by simp, .inr h₂.symm⟩
      | finallyHandler => simp [Frame.crossing] at hcross
      | routed route =>
        simp only [Frame.crossing] at hcross
        split at hcross
        · cases hcross
        · exact hpass _ hcross rfl rfl
      | loop exit next name => exact hpass _ hcross rfl rfl
      | switch exit => exact hpass _ hcross rfl rfl
      | labeled exit name => exact hpass _ hcross rfl rfl

theorem Context.mem_labels {ctx : Context} (hframe : frame ∈ ctx.frames)
    (hl : l ∈ frame.labels) : l ∈ ctx.labels :=
  List.mem_flatMap.2 ⟨frame, hframe, hl⟩

namespace Lower

variable {U K : Set Cell} {ctx : Context} {T : Targets} {s s' : Session}
  {I : Set Cell} {value : Temp}
variable {name : Option String} {e : ReturnEpilogue}

/-! ### Jumps -/

theorem jumpTo_yields {isTarget : Frame → Bool} {label? : Frame → Option Label} {missing : Decline}
    (hlabel : ∀ f l, label? f = some l → l ∈ f.labels) :
    Yields U K ctx (.idle T) s I (jumpTo isTarget label? missing) fun _ => Set.univ := by
  refine .read_bind ?_
  simp only
  split
  · exact .decline
  · rename_i target htarget
    obtain ⟨frame, hfind, htarget⟩ := Option.bind_eq_some_iff.1 htarget
    have hl := hlabel frame target htarget
    have hmem := Context.mem_labels (List.mem_of_find?_eq_some hfind) hl
    unfold jumpAcross
    split
    · exact .decline
    · rename_i hcross
      exact .leaveOut (Jumps.mem_of_crossing hfind hl hcross).2 hmem
    · rename_i hcross
      exact .branchOut ((Jumps.mem_of_crossing hfind hl hcross).1 rfl) hmem

theorem breakTo_yields :
    Yields U K ctx (.idle T) s I (breakTo name) fun _ => Set.univ := by
  refine jumpTo_yields fun f l hl => ?_
  cases f <;> simp_all [Frame.exit?, Frame.labels]

theorem continueTo_yields :
    Yields U K ctx (.idle T) s I (continueTo name) fun _ => Set.univ := by
  refine jumpTo_yields fun f l hl => ?_
  cases f <;> simp_all [Frame.labels]

/-! ### Returns -/

/-- The shared exit that is allocated next. -/
def nextExit (s : Session) : ReturnEpilogue :=
  ⟨⟨s.labelCount⟩, ⟨s.slots.size⟩⟩

/-- The session in which the shared exit has been allocated. -/
def withExit (s : Session) : Session :=
  { s with
    labelCount := s.labelCount + 1
    slots := s.slots.push { info := { name := "$return", storage := .object, binding := none } }
    epilogue := some (nextExit s) }

theorem sharedExit_eq_pure (hsome : s.epilogue = some e) :
    sharedExit ctx s = (Pure.pure e : Lower ReturnEpilogue) ctx s := by
  rw [sharedExit, get_run, hsome]

theorem sharedExit_eq (hnone : s.epilogue = none) :
    sharedExit ctx s = .ok (nextExit s) (withExit s) := by
  rw [sharedExit, get_run, hnone]
  rfl

theorem allocates_nextExit : s.Allocates (withExit s) (nextExit s).label :=
  ⟨le_rfl, Nat.lt_succ_self _⟩

theorem before_withExit (hnone : s.epilogue = none) : s.Before (withExit s) :=
  ⟨Nat.le_succ _, before_freshSlot.slots, by simp [hnone]⟩

theorem inv_withExit (hinv : ctx.Inv s) (hnone : s.epilogue = none) : ctx.Inv (withExit s) where
  frames l hl := Nat.lt_succ_of_lt (hinv.frames l hl)
  exit e he := by
    cases he
    exact allocates_nextExit.2
  placements p hp slot hslot := (hinv.placements p hp slot hslot).mono (before_withExit hnone)

theorem sharedExit_yields : Keeps U K ctx T s I sharedExit := by
  intro hready e s' hrun
  cases hexit : s.epilogue with
  | some e' =>
    rw [sharedExit_eq_pure hexit] at hrun
    exact Yields.pure (O := fun _ => I) subset_rfl hready e s' hrun
  | none =>
    rw [sharedExit_eq hexit] at hrun
    cases hrun
    refine ⟨.single (.exit (nextExit s)), ⟨?_, ?_, ?_, before_withExit hexit,
      inv_withExit hready.inv hexit⟩, ?_⟩
    · simp [withExit, Outline.single, Outline.code, Item.code]
    · simp [withExit, Outline.single, Outline.regions]
    · simp [withExit, Outline.single, Outline.points, Item.points]
    refine ⟨fun n => ?_, by simp, fun l hl => ?_, fun e he => ?_, fun z hz => ⟨?_, trivial⟩,
      fun z hz hzU Λ hΛ => ?_⟩
    · simp only [Outline.single, Outline.tally, Item.tally]
      split <;> rename_i hn
      · exact ⟨le_rfl, fun _ => .inl (hn ▸ allocates_nextExit)⟩
      · simp
    · rcases hl with ⟨i, hi, -⟩ | ⟨p, hp, -⟩
      · simp [Outline.single, Outline.code, Item.code] at hi
      · simp [Outline.single, Outline.points, Item.points] at hp
    · cases he
      exact .inr ⟨by simp [Outline.single, Outline.exits, Item.exits], allocates_nextExit⟩
    · exact hz.epilogue _ rfl
    · refine ⟨Function.update Λ (nextExit s).label (insert (.slot (nextExit s).slot) U),
        fun l hl _ _ => Function.update_of_ne ?_ .., ⟨fun l => ?_, fun e he => ?_⟩,
        ⟨by simp [Item.points], trivial⟩, fun A hI hK => ⟨hK, hI⟩⟩
      · rintro rfl
        exact hl allocates_nextExit
      · rcases eq_or_ne l (nextExit s).label with rfl | hne
        · simp
        · simpa [hne] using hΛ.all l
      · cases he
        simp

theorem sharedExit_ok (h : sharedExit ctx s = .ok e s') :
    s'.epilogue = some e := by
  cases hexit : s.epilogue with
  | some e' =>
    rw [sharedExit_eq_pure hexit] at h
    cases h
    exact hexit
  | none =>
    rw [sharedExit_eq hexit] at h
    cases h
    rfl

theorem returnThrough_yields {fields : PendingFields} {final : FinallyRoute}
    (hentry : final.entry ∈ (Jumps.ofFrames ctx.frames).branch ∧ final.entry ∈ ctx.labels)
    (hexit : final.exit ∈ (Jumps.ofFrames ctx.frames).branch ∧ final.exit ∈ ctx.labels)
    (hvalue : .temp value ∈ I) :
    Yields U K ctx (.idle T) s I (returnThrough fields final value) fun _ => Set.univ := by
  refine .bind (storeState_yields (by grind)) fun _ => .bind setFlag_yields fun _ => ?_
  refine .bind setFlag_yields fun _ => .bind clearState_yields fun _ => ?_
  split
  · exact .branchOut hexit.1 hexit.2
  · exact .branchOut hentry.1 hentry.2

theorem returnValue_yields (hvalue : .temp value ∈ I) :
    Yields U K ctx (.idle T) s I (returnValue value) fun _ => Set.univ := by
  refine .intro fun hready => .bind (asObject_yields (by grind)) fun t => .read_bind ?_
  simp only
  split
  · split
    · exact .decline
    · rename_i hfinally
      split
      · exact .decline
      · refine .bind sharedExit_yields fun e {s₂ he _} => ?_
        have he := sharedExit_ok he
        refine .bind (storeSlot_yields (by grind)) fun _ {s₃ _ hs₃} => ?_
        exact .leaveToExit hready.base (hs₃.epilogue e he)
          (Jumps.mayExit_ofFrames (by simpa using hfinally)) (.inl rfl)
  · rename_i hnative
    have hnative : ∀ f ∈ ctx.frames, f.isNative = false := by
      simpa using List.dropWhile_eq_nil_iff.1 hnative
    split
    · rename_i fields final hroute
      obtain ⟨frame, hframe, hroute⟩ := List.exists_of_findSome?_eq_some hroute
      cases frame with
      | routed route =>
        obtain ⟨final', hfinal, heq⟩ : ∃ final', route.finallyRoute = some final' ∧
            (route.fields, final') = (fields, final) := by
          simpa [Frame.finallyRoute?] using hroute
        cases heq
        have hlabels : ∀ l ∈ [final.entry, final.exit], l ∈ (Frame.routed route).labels := by
          simp [Frame.labels, hfinal]
        obtain ⟨inner, outer, hsplit⟩ := List.append_of_mem hframe
        have hbranch : ∀ l ∈ [final.entry, final.exit], l ∈ (Jumps.ofFrames ctx.frames).branch := by
          intro l hl
          rw [hsplit]
          refine Jumps.mem_branch_of_append (fun f hf => hnative f ?_) (hlabels l hl)
          simp [hsplit, hf]
        have hmem : ∀ l ∈ [final.entry, final.exit], l ∈ ctx.labels :=
          fun l hl => Context.mem_labels hframe (hlabels l hl)
        exact returnThrough_yields ⟨hbranch _ (by simp), hmem _ (by simp)⟩
          ⟨hbranch _ (by simp), hmem _ (by simp)⟩ (by grind)
      | _ => simp [Frame.finallyRoute?] at hroute
    · exact .stop rfl (.inl rfl) (.inr ⟨.inl rfl, Jumps.isNative_eq_false hnative⟩)

/-! ### Exceptions -/

theorem Frame.isRegion_of_isNative {frame : Frame} (h : frame.isNative) :
    frame.isRegion = true := by
  cases frame <;> simp_all [Frame.isNative, Frame.isRegion]

theorem throwValue_yields (hvalue : .temp value ∈ I) :
    Yields U K ctx (.idle T) s I (throwValue value) fun _ => Set.univ := by
  refine .bind (asObject_yields (by grind)) fun t => .read_bind ?_
  have hraise : ∀ s, Yields U K ctx (.idle T) s (insert (.temp t) I) (emit (.raise t))
      fun _ => Set.univ := fun s => .stop rfl (.inl rfl) (.inl rfl)
  split
  · rename_i route hregion
    have hfind := List.find?_eq_some_iff_append.1 hregion
    obtain ⟨-, inner, outer, hsplit, hinner⟩ := hfind
    have hl : route.throwLabel ∈ (Frame.routed route).labels := by simp [Frame.labels]
    refine .bind (storeState_yields (by grind)) fun _ => ?_
    refine .branchOut ?_ (Context.mem_labels (by grind) hl)
    rw [hsplit]
    refine Jumps.mem_branch_of_append (fun f hf => ?_) hl
    cases hn : f.isNative
    · rfl
    · simpa [Frame.isRegion_of_isNative hn] using hinner f hf
  · exact hraise _
  · rename_i hregion
    split
    · refine .stop rfl (.inl rfl) (.inr ⟨.inr rfl, Jumps.isNative_eq_false fun f hf => ?_⟩)
      have hnone := List.find?_eq_none.1 hregion f hf
      cases hn : f.isNative
      · rfl
      · exact absurd (Frame.isRegion_of_isNative hn) hnone
    · exact hraise _

theorem throwBuiltInError_yields {kind : ErrorKind} {message : String} :
    Yields U K ctx (.idle T) s I (throwBuiltInError kind message) fun _ => Set.univ :=
  .bind (.define trivial (by simp [Operation.reads, Operation.uses]))
    fun _ => throwValue_yields (by grind)

end Lower

end ScriptLowering
