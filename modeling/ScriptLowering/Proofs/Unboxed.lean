import ScriptLowering.Proofs.Course.Step

/-!
# Numbers stay bare

A computation with numbers, and with variables that hold nothing but numbers, is done on bare
doubles from end to end: its lowering succeeds, converts nothing, leaves no operator to the runtime
and yields a bare double. A comparison of two such computations yields a bare boolean, so that a
branch can test it as it is.

The induction over the expression needs to know where the variables live. A variable for numbers
that has a home lives in a slot for bare doubles; every step of a lowering keeps this true.

## Main results

* `Session.Step.housesNumbers`: what every step keeps true of the homes of variables for numbers;
* `Lower.lowerExpr_unboxed`: expressions and tests on numbers.
-/

namespace ScriptLowering

/-- The instruction changes a representation, leaves an operator to the runtime or builds a scope
chain. -/
def Instr.boxes : Instr → Bool
  | .define _ (.coerce _ _) | .define _ (.add _ _) | .define _ (.addToNumber _ _)
  | .define _ (.dynamic _ _ _) | .define _ (.buildScopes _) => true
  | _ => false

/-- Expressions on numbers: literals and variables for numbers under arithmetic, assignments and
sequences. -/
inductive Expr.Numeric (w : Setting) : Expr → Prop
  | number (value : Binary64) : Numeric w (.number value)
  | ident {id : BindingId} (h : w.IsNumberLocal id) : Numeric w (.ident id)
  | unary {op : UnaryOp} {operand : Expr} (hop : op = .neg ∨ op = .plus ∨ op = .bitNot)
      (h : Numeric w operand) : Numeric w (.unary op operand)
  | binary {op : BinaryOp} {left right : Expr} (hop : ∀ d, op.operatorClass ≠ .relation d)
      (hleft : Numeric w left) (hright : Numeric w right) : Numeric w (.binary op left right)
  | assign {id : BindingId} {target : Pattern} {value : Expr} (hid : w.IsNumberLocal id)
      (htarget : target = .binding id ∨ target = .target (.ident id)) (h : Numeric w value) :
      Numeric w (.assign target value)
  | compoundAssign {op : BinaryOp} {id : BindingId} {value : Expr}
      (hop : ∀ d, op.operatorClass ≠ .relation d) (hid : w.IsNumberLocal id) (h : Numeric w value) :
      Numeric w (.compoundAssign op (.ident id) value)
  | update {op : UpdateOp} {inFront : Bool} {id : BindingId} (hid : w.IsNumberLocal id) :
      Numeric w (.update op inFront (.ident id))
  | sequence {exprs : List Expr} (hne : exprs ≠ []) (h : ∀ e ∈ exprs, Numeric w e) :
      Numeric w (.sequence exprs)

/-- Comparisons of numbers, and their negations. -/
inductive Expr.NumericTest (w : Setting) : Expr → Prop
  | compare {op : BinaryOp} {relation : DynamicOp} {compare : CompareOp} {left right : Expr}
      (hop : op.operatorClass = .relation relation) (hcompare : relation.onNumbers? = some compare)
      (hleft : left.Numeric w) (hright : right.Numeric w) : NumericTest w (.binary op left right)
  | not {test : Expr} (h : NumericTest w test) : NumericTest w (.unary .not test)

/-! ### Where variables for numbers live -/

namespace Session

variable {w : Setting} {s s₁ s' : Session}

/-- A variable for numbers that has a home lives in a slot for bare doubles. -/
def HousesNumbers (w : Setting) (s : Session) : Prop :=
  ∀ id home, w.IsNumberLocal id → s.placements.lookup id = some home →
    ∃ slot, home = .slot slot ∧ s.layout.slot slot = some .double

theorem HousesNumbers.of_slots (h : s.HousesNumbers w)
    (hslots : ∀ {slot storage}, s.layout.slot slot = some storage → s'.layout.slot slot = some storage)
    (hplacements : s'.placements = s.placements) : s'.HousesNumbers w := by
  intro id home hid hhome
  obtain ⟨slot, rfl, hslot⟩ := h id home hid (hplacements ▸ hhome)
  exact ⟨slot, rfl, hslots hslot⟩

theorem HousesNumbers.addSlot {info : SlotInfo} (h : s.HousesNumbers w) (hinfo : ∀ id,
    info.binding = some id → w.IsNumberLocal id → info.storage = .double) :
    (s.addSlot info).HousesNumbers w := by
  intro id home hid hhome
  have hkeep : s.placements.lookup id = some home →
      ∃ slot, home = .slot slot ∧ (s.addSlot info).layout.slot slot = some .double := fun hhome => by
    obtain ⟨slot, rfl, hslot⟩ := h id home hid hhome
    exact ⟨slot, rfl, (extends_addSlot (n := 0) info).slots hslot⟩
  cases hbinding : info.binding with
  | none => exact hkeep (by simpa [Session.addSlot, hbinding] using hhome)
  | some id' =>
    by_cases heq : id = id'
    · subst heq
      obtain rfl : .slot ⟨s.slots.size⟩ = home := by simpa [Session.addSlot, hbinding] using hhome
      exact ⟨_, rfl, by simp [layout_slot, Session.addSlot, hinfo id hbinding hid]⟩
    · refine hkeep ?_
      simpa [Session.addSlot, hbinding, List.lookup_cons, beq_eq_false_iff_ne.2 heq] using hhome

theorem Step.housesNumbers (hs : s.Sound w) (h : s.HousesNumbers w) (hstep : Step w s s') :
    s'.HousesNumbers w := by
  have hslots : ∀ {slot storage}, s.layout.slot slot = some storage →
      s'.layout.slot slot = some storage := (hstep.extends hs).slots
  cases hstep with
  | aside hsame => exact h.of_slots hslots hsame.placements
  | freshSlot _ hnew => exact h.addSlot fun id hid => (hnew id hid).2
  | @home new home _ _ _ hslot =>
    intro id home' hid hhome
    have hne : id ≠ new := fun heq => hslot (heq ▸ hid)
    exact h id home' hid (by simpa [List.lookup_cons, beq_eq_false_iff_ne.2 hne] using hhome)
  | _ => exact h.of_slots hslots rfl

/-- Between the sessions nothing is boxed, temps keep their storages, and variables for numbers live
in slots for bare doubles. -/
structure Calculates (w : Setting) (s s' : Session) : Prop where
  code : ∃ new, s'.code.toList = s.code.toList ++ new ∧ ∀ i ∈ new, i.boxes = false
  temps : ∀ {t storage}, s.layout.temp t = some storage → s'.layout.temp t = some storage
  homes : s'.HousesNumbers w

theorem Calculates.of_same (h : s'.HousesNumbers w) (hcode : s'.code = s.code)
    (htemps : s'.temps = s.temps) : s.Calculates w s' :=
  ⟨⟨[], by simp [hcode], by simp⟩, fun ht => by simpa [layout_temp, htemps] using ht, h⟩

theorem Calculates.trans (h : s.Calculates w s₁) (h' : s₁.Calculates w s') : s.Calculates w s' := by
  obtain ⟨new, hcode, hnew⟩ := h.code
  obtain ⟨new', hcode', hnew'⟩ := h'.code
  refine ⟨⟨new ++ new', by rw [hcode', hcode, List.append_assoc], fun i hi => ?_⟩,
    fun ht => h'.temps (h.temps ht), h'.homes⟩
  exact (List.mem_append.1 hi).elim (hnew i) (hnew' i)

end Session

namespace Lower

open Session

/-! ### Computations on bare doubles -/

variable {ctx : Context} {α β : Type} {s s' : Session} {m : Lower α} {R : α → Session → Prop}
  {storage : Storage} {op : BinaryOp} {t left right : Temp} {id : BindingId}

/-- The computation succeeds without boxing anything, with a result like this. -/
def Computes (ctx : Context) (s : Session) (m : Lower α) (R : α → Session → Prop) : Prop :=
  s.HousesNumbers ctx.setting → ∃ a s', m ctx s = .ok a s' ∧ s.Calculates ctx.setting s' ∧ R a s'

/-- The temp has the storage. -/
abbrev Gives (storage : Storage) (t : Temp) (s : Session) : Prop :=
  s.layout.temp t = some storage

theorem Computes.bind {f : α → Lower β} {Q : β → Session → Prop} (h : Computes ctx s m R)
    (hf : ∀ a s', s.Calculates ctx.setting s' → R a s' → Computes ctx s' (f a) Q) :
    Computes ctx s (m >>= f) Q := by
  intro hs
  obtain ⟨a, s₁, hrun, hcalc, ha⟩ := h hs
  obtain ⟨b, s₂, hrun', hcalc', hb⟩ := hf a s₁ hcalc ha hcalc.homes
  exact ⟨b, s₂, by rw [bind_run hrun, hrun'], hcalc.trans hcalc', hb⟩

/-- A step that only looks something up. -/
theorem Computes.after {a : α} {f : α → Lower β} {Q : β → Session → Prop} (hrun : m ctx s = .ok a s)
    (h : Computes ctx s (f a) Q) : Computes ctx s (m >>= f) Q := by
  intro hs
  rw [bind_run hrun]
  exact h hs

theorem Computes.done {a : α} (h : R a s) : Computes ctx s (pure a) R :=
  fun hs => ⟨a, s, rfl, .of_same hs rfl rfl, h⟩

theorem define_computes {operation : Operation}
    (h : (Instr.define ⟨s.temps.size⟩ operation).boxes = false) :
    Computes ctx s (define storage operation) (Gives storage) := by
  refine fun hs => ⟨_, _, rfl, ⟨⟨[_], Array.toList_push, by simpa using h⟩, fun {t} _ ht => ?_,
    hs.of_slots id rfl⟩, Array.getElem?_push_size⟩
  exact (extends_allocate (n := t.index + 1) storage).temps ht |>.resolve_right (by omega)

theorem forbidSuspend_run (hres : ctx.isResumable = false) (exprs : List Expr) :
    forbidSuspend exprs ctx s = .ok () s := by
  unfold forbidSuspend
  rw [bind_run (m := read) (a := ctx) rfl, hres]
  rfl

/-! ### Variables -/

theorem requireBinding_run {b : Binding} (h : ctx.tree.binding? id = some b) :
    requireBinding id ctx s = .ok b s := by
  change require (ctx.tree.binding? id) ctx s = _
  rw [h]
  rfl

/-- A variable for numbers gets a slot for bare doubles. -/
theorem placement_computes (hid : ctx.setting.IsNumberLocal id) :
    Computes ctx s (placement id) fun home s' =>
      ∃ slot, home = .slot slot ∧ s'.layout.slot slot = some .double := by
  intro hs
  unfold placement
  rw [get_run]
  cases hlookup : s.placements.lookup id with
  | some home => exact ⟨home, s, rfl, .of_same hs rfl rfl, hs id home hid hlookup⟩
  | none =>
    obtain ⟨hres, b, hb, howner, hcaptured, hparameter, -, htype⟩ := hid
    have hchoose : choosePlacement id ctx s = .ok (.slot ⟨s.slots.size⟩)
        { s with slots := s.slots.push { info := ⟨b.name, .double, some id⟩ } } := by
      have hfound : requireBinding id ctx s = .ok b s := requireBinding_run hb
      have howner' : require (ctx.tree.enclosingFunction? b.scope) ctx s = .ok
        ctx.function.scope s := howner ▸ rfl
      unfold choosePlacement
      rw [bind_run hfound, bind_run (m := read) (a := ctx) rfl, bind_run howner', if_neg (by simp),
        hcaptured, show ctx.isResumable = false from hres, htype]
      simp only [Bool.false_eq_true, if_false]
      cases hkind : b.kind with
      | parameter => exact absurd hkind hparameter
      | _ => rfl
    refine ⟨_, s.addSlot ⟨b.name, .double, some id⟩, (bind_run hchoose).trans rfl,
      .of_same (hs.addSlot fun _ _ _ => rfl) rfl rfl, _, rfl, ?_⟩
    exact congrArg (Option.map _) Array.getElem?_push_size

theorem slotStorage_run {slot : Slot} (h : s.layout.slot slot = some storage) :
    slotStorage slot ctx s = .ok storage s := by
  have : slotStorage slot ctx s = .ok ((s.layout.slot slot).getD .object) s := rfl
  rw [this, h]
  rfl

theorem loadBinding_computes (hid : ctx.setting.IsNumberLocal id) :
    Computes ctx s (loadBinding id) (Gives .double) := by
  refine (placement_computes hid).bind fun home s' _ ⟨slot, hhome, hslot⟩ => ?_
  subst hhome
  exact .after (slotStorage_run hslot) (define_computes rfl)

theorem assignBinding_computes (hid : ctx.setting.IsNumberLocal id) (h : Gives .double t s) :
    Computes ctx s (assignBinding id t) fun _ _ => True := by
  obtain ⟨b, hb, hconst⟩ : ∃ b, ctx.tree.binding? id = some b ∧ b.kind ≠ .const := by
    obtain ⟨-, b, hb, -, -, -, hconst, -⟩ := hid
    exact ⟨b, hb, hconst⟩
  refine .after (requireBinding_run hb) ?_
  rw [if_neg hconst]
  refine (placement_computes hid).bind fun home s' hcalc ⟨slot, hhome, hslot⟩ => ?_
  subst hhome
  refine .after (slotStorage_run hslot) (.after (asNumber_run (hcalc.temps h) rfl) fun hs => ?_)
  refine ⟨(), s'.store slot t, rfl, ⟨⟨[_], Array.toList_push, by simp [Instr.boxes]⟩, fun ht => ht,
    hs.of_slots (extends_store (n := 0) slot t).slots rfl⟩, trivial⟩

/-! ### Operators -/

theorem applyBinary_computes (hop : ∀ d, op.operatorClass ≠ .relation d) (hleft : Gives .double left s)
    (hright : Gives .double right s) : Computes ctx s (applyBinary op left right) (Gives .double) := by
  unfold applyBinary
  cases hclass : op.operatorClass with
  | addition =>
    refine .after (storageOf_run hleft) (.after (storageOf_run hright) ?_)
    exact .after (asNumber_run hleft rfl) (.after (asNumber_run hright rfl) (define_computes rfl))
  | arithmetic numeric =>
    exact .after (asNumber_run hleft rfl) (.after (asNumber_run hright rfl) (define_computes rfl))
  | relation d => exact absurd hclass (hop d)

theorem relate_computes {relation : DynamicOp} {compare : CompareOp}
    (hcompare : relation.onNumbers? = some compare) (hleft : Gives .double left s)
    (hright : Gives .double right s) : Computes ctx s (relate relation left right) (Gives .bool) := by
  refine .after (storageOf_run hleft) (.after (storageOf_run hright) ?_)
  rw [hcompare]
  exact define_computes rfl

theorem binary_computes {m m' : Lower Temp} (hop : ∀ d, op.operatorClass ≠ .relation d)
    (hm : Computes ctx s m (Gives .double)) (hm' : ∀ s', Computes ctx s' m' (Gives .double)) :
    Computes ctx s (binary op m m') (Gives .double) := by
  unfold binary
  split
  · refine hm.bind fun left s₁ _ hleft => .after (asNumber_run hleft rfl) ?_
    exact (hm' s₁).bind fun right s₂ _ hright => .after (asNumber_run hright rfl) (define_computes rfl)
  · exact hm.bind fun left s₁ _ hleft => (hm' s₁).bind fun right s₂ hcalc hright =>
      applyBinary_computes hop (hcalc.temps hleft) hright

theorem update_computes {op : UpdateOp} {inFront : Bool} (hid : ctx.setting.IsNumberLocal id) :
    Computes ctx s (update op inFront (.binding id)) (Gives .double) := by
  refine (loadBinding_computes hid).bind fun old s₁ _ hold => .after (asNumber_run hold rfl) ?_
  refine (define_computes rfl).bind fun one s₂ hcalc hone => ?_
  refine (applyBinary_computes (by cases op <;> simp [BinaryOp.operatorClass]) (hcalc.temps hold) hone).bind
    fun updated s₃ hcalc' hupdated => ?_
  refine (assignBinding_computes hid hupdated).bind fun _ s₄ hcalc'' _ => .done ?_
  split
  · exact hcalc''.temps hupdated
  · exact hcalc''.temps (hcalc'.temps (hcalc.temps hold))

theorem lowerSequence_computes {exprs : List Expr}
    (h : ∀ e ∈ exprs, ∀ s, Computes ctx s (lowerExpr e) (Gives .double)) :
    ∀ {last : Option Temp} {s : Session}, (∀ t ∈ last, Gives .double t s) →
      (last = none → exprs ≠ []) → Computes ctx s (lowerSequence last exprs) (Gives .double) := by
  induction exprs with
  | nil =>
    intro last s hlast hne
    obtain ⟨t, rfl⟩ := Option.ne_none_iff_exists'.1 fun hnone => hne hnone rfl
    rw [lowerSequence]
    exact .done (hlast t rfl)
  | cons e rest ih =>
    intro last s _ _
    rw [lowerSequence.eq_3]
    refine (h e List.mem_cons_self s).bind fun t s₁ _ ht => ?_
    exact ih (fun e he => h e (List.mem_cons_of_mem _ he)) (by simpa using ht) (by simp)

/-! ### Expressions -/

theorem lowerExpr_computes {e : Expr} (hres : ctx.isResumable = false) (h : e.Numeric ctx.setting) :
    ∀ s, Computes ctx s (lowerExpr e) (Gives .double) := by
  induction h with
  | number value =>
    intro s
    rw [lowerExpr]
    exact define_computes rfl
  | ident hid =>
    intro s
    rw [lowerExpr]
    exact loadBinding_computes hid
  | unary hop _ ih =>
    intro s
    rw [lowerExpr]
    refine (ih s).bind fun t s₁ _ ht => ?_
    rcases hop with rfl | rfl | rfl
    · exact .after (asNumber_run ht rfl) (define_computes rfl)
    · exact fun hs => ⟨t, s₁, asNumber_run ht rfl, .of_same hs rfl rfl, ht⟩
    · exact .after (asNumber_run ht rfl) (define_computes rfl)
  | binary hop _ _ ihleft ihright =>
    intro s
    rw [lowerExpr]
    exact .after (forbidSuspend_run hres _) (binary_computes hop (ihleft s) ihright)
  | @assign id target value hid htarget _ ih =>
    intro s
    have hlower : lowerExpr (.assign target value) = (do
        let t ← lowerExpr value
        assignBinding id t
        return t) := by
      rcases htarget with rfl | rfl
      · rw [lowerExpr]
      · rw [lowerExpr, resolveTarget]
        rfl
    rw [hlower]
    refine (ih s).bind fun t s₁ _ ht => ?_
    exact (assignBinding_computes hid ht).bind fun _ _ hcalc _ => .done (hcalc.temps ht)
  | compoundAssign hop hid _ ih =>
    intro s
    rw [lowerExpr, resolveTarget]
    refine .after (forbidSuspend_run hres _) (.after (a := Target.binding _) rfl ?_)
    refine (loadBinding_computes hid).bind fun current s₁ _ hcurrent => ?_
    refine (ih s₁).bind fun operand s₂ hcalc hoperand => ?_
    refine (applyBinary_computes hop (hcalc.temps hcurrent) hoperand).bind fun t s₃ _ ht => ?_
    exact (assignBinding_computes hid ht).bind fun _ _ hcalc _ => .done (hcalc.temps ht)
  | update hid =>
    intro s
    rw [lowerExpr, resolveTarget]
    exact .after (a := Target.binding _) rfl (update_computes hid)
  | sequence hne _ ih =>
    intro s
    rw [lowerExpr]
    exact lowerSequence_computes ih (by simp) fun _ => hne

theorem asBoolean_run (h : Gives .bool t s) : asBoolean t ctx s = .ok t s := by
  unfold asBoolean
  rw [bind_run (storageOf_run h)]
  rfl

theorem lowerExpr_computes_test {e : Expr} (hres : ctx.isResumable = false)
    (h : e.NumericTest ctx.setting) : ∀ s, Computes ctx s (lowerExpr e) (Gives .bool) := by
  induction h with
  | compare hop hcompare hleft hright =>
    intro s
    rw [lowerExpr]
    refine .after (forbidSuspend_run hres _) ?_
    unfold binary applyBinary
    rw [hop]
    refine (lowerExpr_computes hres hleft s).bind fun left s₁ _ hleft => ?_
    exact (lowerExpr_computes hres hright s₁).bind fun right s₂ hcalc hright =>
      relate_computes hcompare (hcalc.temps hleft) hright
  | not _ ih =>
    intro s
    rw [lowerExpr]
    exact (ih s).bind fun t s₁ _ ht => .after (asBoolean_run ht) (define_computes rfl)

/-- At any point of a function that is not resumable, an expression on numbers is lowered without
boxing and yields a bare double; a comparison of two of them is a condition as it is. -/
theorem lowerExpr_unboxed {ctx : Context} {s : Session} {e : Expr} (hres : ctx.isResumable = false)
    (hs : ({} : Session).Leads ctx.setting 0 s) :
    (e.Numeric ctx.setting → ∃ t s' new, lowerExpr e ctx s = .ok t s' ∧
      s'.code.toList = s.code.toList ++ new ∧ (∀ i ∈ new, i.boxes = false) ∧
      s'.layout.temp t = some .double) ∧
    (e.NumericTest ctx.setting → ∃ t s' new, condition (lowerExpr e) ctx s = .ok t s' ∧
      s'.code.toList = s.code.toList ++ new ∧ (∀ i ∈ new, i.boxes = false) ∧
      s'.layout.temp t = some .bool) := by
  have hhomes : s.HousesNumbers ctx.setting :=
    hs.invariant (sound_empty _) (by simp [HousesNumbers]) Step.housesNumbers
  constructor
  · intro h
    obtain ⟨t, s', hrun, hcalc, ht⟩ := lowerExpr_computes hres h s hhomes
    obtain ⟨new, hcode, hnew⟩ := hcalc.code
    exact ⟨t, s', new, hrun, hcode, hnew, ht⟩
  · intro h
    obtain ⟨t, s', hrun, hcalc, ht⟩ := lowerExpr_computes_test hres h s hhomes
    obtain ⟨new, hcode, hnew⟩ := hcalc.code
    exact ⟨t, s', new, (bind_run hrun).trans (asBoolean_run ht), hcode, hnew, ht⟩

/-- A function with one variable `n`, which holds nothing but numbers. -/
def countingContext : Context where
  function := { name := "f", kind := .function, scope := ⟨1⟩ }
  tree :=
    { scopes := #[⟨"m", .global, [], [], false⟩, ⟨"m/f", .function, [⟨0⟩], [⟨0⟩], false⟩]
      bindings := #[{ name := "n", kind := .lexical, scope := ⟨1⟩, stableType := some .double }] }
  registry := {}
  fixedArity := 3
  leafName := "m/f"
  chain := []
  ownsLeaf := false

/-- `n = -n * 2` and `!(n < 2)` at the start of the function. -/
theorem lowerExpr_unboxed_counting :
    (∃ t s', lowerExpr (.assign (.binding ⟨0⟩) (.binary .mul (.unary .neg (.ident ⟨0⟩))
        (.number (.ofNat 2)))) countingContext {} = .ok t s' ∧ s'.layout.temp t = some .double) ∧
    ∃ t s', condition (lowerExpr (.unary .not (.binary .lt (.ident ⟨0⟩) (.number (.ofNat 2)))))
      countingContext {} = .ok t s' ∧ s'.layout.temp t = some .bool := by
  have hn : countingContext.setting.IsNumberLocal ⟨0⟩ := by
    refine ⟨rfl, _, rfl, ?_, ?_, ?_, ?_, ?_⟩ <;> decide
  have htwo : Expr.Numeric countingContext.setting (.number (.ofNat 2)) := .number _
  have hproduct : Expr.Numeric countingContext.setting
      (.binary .mul (.unary .neg (.ident ⟨0⟩)) (.number (.ofNat 2))) :=
    .binary (by simp [BinaryOp.operatorClass]) (.unary (.inl rfl) (.ident hn)) htwo
  have hless : Expr.NumericTest countingContext.setting (.binary .lt (.ident ⟨0⟩) (.number (.ofNat 2))) :=
    .compare (show BinaryOp.operatorClass .lt = .relation .lt from rfl)
      (show DynamicOp.onNumbers? .lt = some .lt from rfl) (.ident hn) htwo
  obtain ⟨t, s', _, hrun, -, -, ht⟩ :=
    (lowerExpr_unboxed rfl (.refl _ _ _)).1 (.assign hn (.inl rfl) hproduct)
  obtain ⟨t', s'', _, hrun', -, -, ht'⟩ := (lowerExpr_unboxed rfl (.refl _ _ _)).2 (.not hless)
  exact ⟨⟨t, s', hrun, ht⟩, t', s'', hrun', ht'⟩

end Lower

end ScriptLowering
