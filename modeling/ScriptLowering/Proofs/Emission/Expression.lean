import ScriptLowering.Proofs.Emission.Suspension
import ScriptLowering.Proofs.Occurrence

/-!
# Expressions and patterns

Every expression yields a value that is available behind its code. The induction is on the source;
each form is one application of the rule for the step that combines its parts. What remains to be
seen is that no temp is read that was lost in a suspension of a later part. The lowering declines
such parts in most places; in the others it takes that the source is durable.
-/

namespace ScriptLowering

/-- What is asked of the parts of a body: a value that is held while the part suspends is in a temp
that outlives the suspension. -/
def Occurrence.Accepted (U : Set Cell) (ctx : Context) (x : Occurrence) : Prop :=
  ctx.isResumable = true → x.durable = true ∨ ∀ t, .temp t ∈ U

namespace Lower

variable {U K : Set Cell} {ctx : Context} {T : Targets} {s s' : Session}
  {I : Set Cell} {value source : Temp} {b c : Bool}
variable {elements : List (Option Pattern)} {properties : List (String × Pattern)} {m : Lower Temp}
  {rest : Option Pattern} {p pattern : Pattern} {β : Type}

/-- Temps outlive the code, if it can be left by a suspension. -/
def Outlives (U : Set Cell) (suspends : Bool) : Prop :=
  suspends = true → ∀ t, .temp t ∈ U

theorem Outlives.of_false (h : b = false) : Outlives U b :=
  fun hb => by simp [h] at hb

theorem Outlives.or_iff : Outlives U (b || c) ↔ Outlives U b ∧ Outlives U c := by
  simp only [Outlives, Bool.or_eq_true]
  exact or_imp

theorem Outlives.mem {t : Temp} (h : Outlives U b) (hU : U ⊆ K) (ht : .temp t ∈ I) :
    .temp t ∈ keep b K I := by
  cases b
  · exact ht
  · exact hU (h rfl t)

theorem Outlives.cells {ts : List Temp} (h : Outlives U b) (hU : U ⊆ K) (hts : tempCells ts ⊆ I) :
    tempCells ts ⊆ keep b K I :=
  tempCells_subset.2 fun t ht => h.mem hU (tempCells_subset.1 hts t ht)

theorem Evaluates.mono (h : Evaluates U K ctx b m) (hbc : b = true → c = true) :
    Evaluates U K ctx c m := by
  intro T s I hK
  refine .weaken (h T s I hK) (by grind)

/-- A value that is computed without a suspension. -/
theorem Evaluates.of_calm (h : ∀ T s I, K ⊆ I → YieldsTemp U K ctx T s I m) :
    Evaluates U K ctx b m :=
  fun T s I hK => .weaken (h T s I hK) (by grind)

/-! ### Destructuring -/

theorem storeBinding_yields {mode : BindMode} {id : BindingId} (hK : K ⊆ I)
    (hvalue : .temp value ∈ I) : Keeps U K ctx T s I (storeBinding mode id value) := by
  cases mode with
  | init => exact initBinding_yields (by grind) (by grind)
  | assign => exact assignBinding_yields (by grind) (by grind)

theorem openPattern_ok (h : openPattern pattern value ctx s = .ok source s') :
    (ctx.mayPause && pattern.suspends) = false := by
  have h₁ := read_ok h
  split at h₁
  · cases h₁
  · rename_i hcond
    cases hpause : ctx.mayPause
    · rfl
    · simpa [Context.mayPause_imp hpause] using hcond

theorem openPattern_yields (hK : K ⊆ I) (hvalue : .temp value ∈ I) :
    YieldsTemp U K ctx T s I (openPattern pattern value) := by
  refine .read_bind ?_
  split
  · exact .decline
  · refine .bind (asObject_yields (by grind)) fun source => .fresh fun valid => ?_
    refine .assign [] valid [] (insert (.temp source) I) (by grind) ?_
    refine .bind (reading_yields (by grind) trivial) fun nullish => ?_
    refine .bind (.branchIf (X := insert (.temp source) I) (by grind)) fun _ => ?_
    refine .bind throwBuiltInError_yields fun _ => ?_
    exact .placeThen [] valid [] (X := insert (.temp source) I) (by grind) fun {s₆ _} => .pure (by grind)

theorem keyConstants_yields (keys : List String) :
    Yields U K ctx (.idle T) s I (keyConstants keys) fun ts => tempCells ts ∪ I := by
  unfold keyConstants
  induction keys generalizing s I with
  | nil => exact .pure (by grind)
  | cons key keys ih =>
    rw [List.mapM_cons]
    refine .bind literal_yields fun t => .bind ih fun ts => .pure (by grind)

theorem objectRest_yields {keys : List String} (hsource : .temp source ∈ I) :
    YieldsTemp U K ctx T s I (objectRest source keys) := by
  refine .bind (keyConstants_yields keys) fun ts => ?_
  refine .bind (reading_yields (by grind) trivial) fun excluded => ?_
  refine .weaken (reading_yields (by grind) trivial) (by grind)

/-- A number as an object, and an operation on it and an object. -/
theorem patternItem_yields {position : Nat} (hsource : .temp source ∈ I) :
    YieldsTemp U K ctx T s I (patternItem source position) := by
  refine .bind literal_yields fun n => ?_
  refine .bind (asObject_yields (by grind)) fun key => ?_
  exact .weaken (reading_yields (by grind) trivial) (by grind)

theorem arrayRest_yields {start : Nat} (hsource : .temp source ∈ I) :
    YieldsTemp U K ctx T s I (arrayRest source start) := by
  refine .bind literal_yields fun n => ?_
  refine .bind (asObject_yields (by grind)) fun key => ?_
  exact .weaken (reading_yields (by grind) trivial) (by grind)

/-! ### Operands in front of others -/

theorem anySuspends_eq_first (exprs : List Expr) :
    Expr.anySuspends exprs = (Expr.firstSuspends exprs || Expr.anySuspends (exprs.drop 1)) := by
  cases exprs <;> simp [Expr.anySuspends, Expr.firstSuspends]

theorem elements_anySuspends (elements : List Element) :
    Element.anySuspends elements = Expr.anySuspends (elements.flatMap Element.operands) := by
  induction elements with
  | nil => rfl
  | cons element rest ih =>
    cases element <;> simp [Element.anySuspends, Expr.anySuspends, Element.operands, ih]

theorem members_anySuspends (members : List Member) :
    Member.anySuspends members = Expr.anySuspends (members.flatMap Member.operands) := by
  induction members with
  | nil => rfl
  | cons member rest ih =>
    cases member <;>
      simp [Member.anySuspends, Expr.anySuspends, Member.operands, ih, Bool.or_assoc]

/-- Only the first operand may suspend. If it does while something is held, then in a temp that
outlives the suspension. -/
theorem outlives_first {exprs : List Expr} {x : Occurrence} (hx : x.Accepted U ctx)
    (hdurable : x.durable = true → Expr.firstSuspends exprs = false)
    (hrest : (ctx.mayPause && Expr.anySuspends (exprs.drop 1)) = false) :
    Outlives U (ctx.mayPause && Expr.anySuspends exprs) := by
  intro h
  rw [Bool.and_eq_true] at h
  obtain ⟨hpause, hany⟩ := h
  rw [hpause, Bool.true_and] at hrest
  rw [anySuspends_eq_first, hrest, Bool.or_false] at hany
  rcases hx (Context.mayPause_imp hpause) with h | h
  · rw [hdurable h] at hany
    cases hany
  · exact h

/-- Nothing is held that is lost while an element of an array literal suspends: either nothing is
held at all in front of the first element, or what is held outlives the suspension. -/
def HoldsElements (U : Set Cell) (ctx : Context) (leading : List Temp) (elements : List Element) :
    Prop :=
  (leading = [] ∧ ∃ value rest, elements = .item value :: rest ∧
    Outlives U (ctx.mayPause && Element.anySuspends rest)) ∨
  Outlives U (ctx.mayPause && Element.anySuspends elements)

/-- The same for the members of an object literal. -/
def HoldsMembers (U : Set Cell) (ctx : Context) (leading : List (String × Temp))
    (members : List Member) : Prop :=
  (leading = [] ∧ ∃ name value rest, members = .named name value :: rest ∧
    Outlives U (ctx.mayPause && Member.anySuspends rest)) ∨
  Outlives U (ctx.mayPause && Member.anySuspends members)

/-- The same for the expressions of a template literal. -/
def HoldsText (U : Set Cell) (ctx : Context) (before : Option Temp) (texts : List String)
    (holes : List Expr) : Prop :=
  (before = none ∧ texts.head?.any (fun text => !text.isEmpty) = false ∧
    Outlives U (ctx.mayPause && Expr.anySuspends (holes.drop 1))) ∨
  Outlives U (ctx.mayPause && Expr.anySuspends holes)

theorem holdsElements_array {elements : List Element}
    (hself : Occurrence.Accepted U ctx (.expr (.array elements)))
    (hrest : (ctx.mayPause &&
      Expr.anySuspends ((elements.flatMap Element.operands).drop 1)) = false) :
    HoldsElements U ctx [] elements := by
  match elements with
  | .item value :: rest =>
    refine .inl ⟨rfl, value, rest, rfl, .of_false ?_⟩
    simpa [elements_anySuspends, Element.operands] using hrest
  | [] | .spread _ :: _ | .hole :: _ =>
    refine .inr ?_
    rw [elements_anySuspends]
    exact outlives_first hself (by simp [Occurrence.durable]) hrest

theorem holdsMembers_object {members : List Member}
    (hself : Occurrence.Accepted U ctx (.expr (.object members)))
    (hrest : (ctx.mayPause &&
      Expr.anySuspends ((members.flatMap Member.operands).drop 1)) = false) :
    HoldsMembers U ctx [] members := by
  match members with
  | .named name value :: rest =>
    refine .inl ⟨rfl, name, value, rest, rfl, .of_false ?_⟩
    simpa [members_anySuspends, Member.operands] using hrest
  | [] | .computed _ _ :: _ | .spread _ :: _ =>
    refine .inr ?_
    rw [members_anySuspends]
    exact outlives_first hself (by simp [Occurrence.durable]) hrest

theorem holdsText_template {texts : List String} {holes : List Expr}
    (h : (ctx.mayPause && Expr.anySuspends
      (holes.drop (if texts.head?.any fun text => !text.isEmpty then 0 else 1))) = false) :
    HoldsText U ctx none texts holes := by
  split at h <;> rename_i htext
  · exact .inr (.of_false h)
  · exact .inl ⟨rfl, by simpa using htext, .of_false h⟩

theorem outlives_pattern (hp : Occurrence.Accepted U ctx (.pattern p)) :
    Outlives U (ctx.mayPause && p.holdsTarget) := by
  intro h
  rw [Bool.and_eq_true] at h
  rcases hp (Context.mayPause_imp h.1) with hdurable | hdurable
  · simp [Occurrence.durable, h.2] at hdurable
  · exact hdurable

theorem holdsTarget_suspends : (p : Pattern) → p.holdsTarget = true → p.suspends = true
  | .target expr, h => by simpa [Pattern.suspends, Pattern.holdsTarget] using h
  | .withDefault inner value, h => by
    have := holdsTarget_suspends inner (by simpa [Pattern.holdsTarget] using h)
    simp [Pattern.suspends, this]
  | .binding _, h | .object _ _, h | .array _ _, h => by simp [Pattern.holdsTarget] at h

theorem quiet_pattern (h : (ctx.mayPause && p.suspends) = false) :
    (ctx.mayPause && p.holdsTarget) = false := by
  cases htarget : p.holdsTarget
  · exact Bool.and_false _
  · rwa [holdsTarget_suspends p htarget] at h

theorem quiet_object (h : (ctx.mayPause && (Pattern.object properties rest).suspends) = false) :
    (ctx.mayPause && Pattern.anyPropertySuspends properties) = false ∧
      ∀ p, rest = some p → (ctx.mayPause && p.suspends) = false := by
  cases rest <;> simp_all [Pattern.suspends, Bool.and_or_distrib_left]

theorem quiet_array (h : (ctx.mayPause && (Pattern.array elements rest).suspends) = false) :
    (ctx.mayPause && Pattern.anyElementSuspends elements) = false ∧
      ∀ p, rest = some p → (ctx.mayPause && p.suspends) = false := by
  cases rest <;> simp_all [Pattern.suspends, Bool.and_or_distrib_left]

/-! ### Steps of the recursion -/

/-- A value is computed, made an object and used. -/
theorem Yields.operand {F D H : List Label} {f : Temp → Lower β}
    {O : β → Set Cell} (hm : Evaluates U K ctx b m) (hK : K ⊆ I)
    (hf : ∀ t s', Yields U K ctx ⟨F, T, D, H⟩ s' (insert (.temp t) (keep b K I)) (f t) O) :
    Yields U K ctx ⟨F, T, D, H⟩ s I (do f (← asObject (← m))) O := by
  refine .bind (hm T s I hK) fun t => ?_
  refine .bind (asObject_yields (by grind)) fun u {s₂ _ _} => ?_
  exact .supply (hf u s₂) (by grind)

/-- An expression that must not suspend here. -/
theorem Yields.forbid {e : Expr} {f : Unit → Lower β} {O : β → Set Cell}
    (hm : Evaluates U K ctx (ctx.mayPause && e.suspends) m)
    (hf : (ctx.mayPause && e.suspends) = false → Evaluates U K ctx false m →
      ∀ s', Yields U K ctx (.idle T) s' I (f ()) O) :
    Yields U K ctx (.idle T) s I (forbidSuspend [e] >>= f) O := by
  refine .bind forbidSuspend_yields fun _ {s₁ h _} => ?_
  have hnone : (ctx.mayPause && e.suspends) = false := by
    simpa [Expr.anySuspends] using (forbidSuspend_ok h).2
  exact hf hnone (hnone ▸ hm) s₁

/-- The first of several arguments; if they are collected in an array, it is appended. -/
theorem argument_yields {rest : Lower (List Temp)} {array : Option Temp}
    {effect : Temp → Temp → Effect} (hm : Evaluates U K ctx b m) (hK : K ⊆ I)
    (hfirst : b = true → array = none) (harray : ∀ t, array = some t → .temp t ∈ I)
    (huses : ∀ t u, (effect t u).uses = [t, u])
    (hrest : ∀ s J, K ⊆ J → (∀ t, array = some t → .temp t ∈ J) →
      Yields U K ctx (.idle T) s J rest fun ts => tempCells ts ∪ J) :
    Yields U K ctx (.idle T) s I
      (do
        let value ← asObject (← m)
        match array with
        | none => pure ()
        | some array => perform (effect array value)
        return value :: (← rest))
      fun ts => tempCells ts ∪ keep b K I := by
  refine .operand hm hK fun value s₁ => ?_
  cases array with
  | none =>
    exact .bind (hrest s₁ _ (by grind) (by simp)) fun ts => .pure (by grind)
  | some array =>
    obtain rfl : b = false := by
      cases b
      · rfl
      · cases hfirst rfl
    refine .bind (.perform ?_) fun _ {s₂ _ _} => ?_
    · simp [huses, harray array rfl]
    · exact .bind (hrest s₂ _ (by grind) (by grind)) fun ts => .pure (by grind)

/-- A computed member is added to an object, which is held meanwhile. -/
theorem setComputed_yields {key : Lower Temp} {object : Temp} {rest : Lower β}
    {O : β → Set Cell} (hkey : Evaluates U K ctx b key) (hvalue : Evaluates U K ctx c m)
    (hU : U ⊆ K) (hK : K ⊆ I) (hobject : .temp object ∈ I) (hfirst : Outlives U b)
    (hsecond : Outlives U c)
    (hrest : ∀ s J, keep (b || c) K I ⊆ J → .temp object ∈ J →
      Yields U K ctx (.idle T) s J rest O) :
    Yields U K ctx (.idle T) s I
      (do
        let key ← asObject (← key)
        let value ← asObject (← m)
        perform (.setItem object key value)
        rest) O := by
  refine .operand hkey hK fun k s₁ => ?_
  refine .operand hvalue (by grind) fun v s₂ => ?_
  have hobject : .temp object ∈ keep c K (insert (.temp k) (keep b K I)) :=
    hsecond.mem hU (.inr (hfirst.mem hU hobject))
  have hk : .temp k ∈ keep c K (insert (.temp k) (keep b K I)) :=
    hsecond.mem hU (.inl rfl)
  refine .bind (.perform (by simp [Effect.uses, hobject, hk])) fun _ {s₃ _ _} => ?_
  refine hrest s₃ _ ?_ (.inr hobject)
  rw [← keep_keep]
  exact (keep_mono (Set.subset_insert ..)).trans (Set.subset_insert ..)

/-- A value is assigned to a target. The parts of the target are held while the value is computed;
the name of a variable has none. -/
theorem assignTarget_yields {expr : Expr} {value : Expr}
    (hresolve : ∀ T s I, K ⊆ I → Yields U K ctx (.idle T) s I (resolveTarget expr)
      fun target => target.cells ∪ keep (ctx.mayPause && expr.suspends) K I)
    (hvalue : Evaluates U K ctx (ctx.mayPause && value.suspends) m) (hK : K ⊆ I) :
    Yields U K ctx (.idle T) s I
      (do
        if !expr.isIdent then forbidSuspend [value]
        let target ← resolveTarget expr
        let value ← m
        writeTarget target value
        return value)
      fun t => insert (.temp t)
        (keep ((ctx.mayPause && expr.suspends) || (ctx.mayPause && value.suspends)) K I) := by
  have hassign : ∀ s, (expr.isIdent = true ∨ (ctx.mayPause && value.suspends) = false) →
      Yields U K ctx (.idle T) s I
        (do
          let target ← resolveTarget expr
          let value ← m
          writeTarget target value
          return value)
        fun t => insert (.temp t)
          (keep ((ctx.mayPause && expr.suspends) || (ctx.mayPause && value.suspends)) K I) := by
    intro s hheld
    refine .bind (hresolve T s I hK) fun target {s₁ htarget _} => ?_
    have hcells : target.cells ⊆ keep (ctx.mayPause && value.suspends) K
        (target.cells ∪ keep (ctx.mayPause && expr.suspends) K I) := by
      rcases hheld with hident | hnone
      · cases expr <;> cases hident
        cases htarget
        exact Set.empty_subset _
      · rw [hnone]
        exact Set.subset_union_left
    refine .bind (hvalue T s₁ _ (by grind)) fun v => ?_
    refine .bind (writeTarget_yields (by grind) (by grind) (by grind)) fun _ => .pure (by grind)
  split
  · refine .bind forbidSuspend_yields fun _ {s₁ h _} => hassign s₁ (.inr ?_)
    simpa [Expr.anySuspends] using (forbidSuspend_ok h).2
  · rename_i hident
    exact hassign s (.inl (by simpa using hident))

/-- A value is assigned to a pattern. -/
theorem assignPattern_yields {value : Expr}
    (hvalue : Evaluates U K ctx (ctx.mayPause && value.suspends) m)
    (hbind : ∀ T s I v, U ⊆ K → K ⊆ I → .temp v ∈ I → Outlives U (ctx.mayPause && p.holdsTarget) →
      Yields U K ctx (.idle T) s I (bindPattern .assign p v)
        fun _ => keep (ctx.mayPause && p.holdsTarget) K I)
    (hheld : Outlives U (ctx.mayPause && p.holdsTarget)) (hK : K ⊆ I) :
    Yields U K ctx (.idle T) s I
      (do
        let value ← m
        bindPattern .assign p value
        return value)
      fun t => insert (.temp t) (keep (ctx.mayPause && (p.suspends || value.suspends)) K I) := by
  refine .intro fun hready => .bind (hvalue T s I hK) fun v {s₁ _ _} => ?_
  refine .bind (hbind T s₁ _ v hready.base (by grind) (.inl rfl) hheld) fun _ => .pure ?_
  refine Set.insert_subset (hheld.mem hready.base (.inl rfl)) ?_
  calc keep (ctx.mayPause && (p.suspends || value.suspends)) K I
      ⊆ keep ((ctx.mayPause && value.suspends) || (ctx.mayPause && p.holdsTarget)) K I := by
        cases h : p.holdsTarget
        · rw [Bool.and_or_distrib_left, Bool.and_false, Bool.or_false]
          exact keep_or_subset_right hK
        · rw [holdsTarget_suspends p h, Bool.true_or, Bool.and_true]
          exact keep_absorb
    _ ⊆ keep (ctx.mayPause && p.holdsTarget) K
          (insert (.temp v) (keep (ctx.mayPause && value.suspends) K I)) := by
        rw [← keep_keep]
        exact keep_mono (by grind)

/-- A value is taken apart; since it is held throughout, no part suspends. -/
theorem destructure_yields {parts last : Temp → Lower Unit} (hK : K ⊆ I)
    (hvalue : .temp value ∈ I)
    (hparts : ∀ source s J, K ⊆ J → .temp source ∈ J → (ctx.mayPause && pattern.suspends) = false →
      Keeps U K ctx T s J (parts source))
    (hlast : ∀ source s J, K ⊆ J → .temp source ∈ J → (ctx.mayPause && pattern.suspends) = false →
      Keeps U K ctx T s J (last source)) :
    Keeps U K ctx T s I (do
        let source ← openPattern pattern value
        parts source
        last source) := by
  refine .bind (openPattern_yields (by grind) (by grind)) fun source {s₁ hopen _} => ?_
  have hnone := openPattern_ok hopen
  refine .bind (hparts source s₁ _ (by grind) (.inl rfl) hnone) fun _ {s₂ _ _} => ?_
  exact .weaken (hlast source s₂ _ (by grind) (.inl rfl) hnone) (by grind)

/-! ### The recursion -/

/-- The parts of a list are accepted if those of its parts are. -/
theorem accepted_append {xs ys : List Occurrence} (h : ∀ x ∈ xs ++ ys, x.Accepted U ctx) :
    (∀ x ∈ xs, x.Accepted U ctx) ∧ ∀ x ∈ ys, x.Accepted U ctx :=
  List.forall_mem_append.1 h

theorem accepted_object (h : ∀ x ∈ (Pattern.object properties rest).inner, x.Accepted U ctx) :
    (∀ x ∈ Pattern.innerProperties properties, x.Accepted U ctx) ∧
      ∀ p, rest = some p → ∀ x ∈ p.inner, x.Accepted U ctx := by
  cases rest <;> simp_all [Pattern.inner, or_imp, forall_and]

theorem accepted_array (h : ∀ x ∈ (Pattern.array elements rest).inner, x.Accepted U ctx) :
    (∀ x ∈ Pattern.innerElements elements, x.Accepted U ctx) ∧
      ∀ p, rest = some p → ∀ x ∈ p.inner, x.Accepted U ctx := by
  cases rest <;> simp_all [Pattern.inner, or_imp, forall_and]

mutual

theorem lowerExpr_evaluates (e : Expr) (he : ∀ x ∈ e.occurrences, x.Accepted U ctx) :
    Evaluates U K ctx (ctx.mayPause && e.suspends) (lowerExpr e) := by
  obtain ⟨hself, hinner⟩ := List.forall_mem_cons.1 he
  cases e with
  | number value | string value | bool value | null | undefined =>
    exact .of_calm fun _ _ _ _ => literal_yields
  | ident binding => exact .of_calm fun _ _ _ hK => loadBinding_yields (by grind)
  | intrinsic name | classRef name =>
    exact .of_calm fun _ _ _ _ => reading_yields (by grind) trivial
  | this => exact .of_calm fun _ _ _ _ => thisValue_yields
  | function ref => exact .of_calm fun _ _ _ hK => closure_yields hK
  | array elements =>
    intro T s I hK
    refine .bind forbidSuspend_yields fun _ {s₁ h _} => .intro fun hready => ?_
    exact lowerElements_yields hready.base [] elements hinner T s₁ I hK (by simp)
      (holdsElements_array hself (forbidSuspend_ok h).2)
  | object members =>
    intro T s I hK
    refine .bind forbidSuspend_yields fun _ {s₁ h _} => .intro fun hready => ?_
    exact lowerMembers_yields hready.base [] members hinner T s₁ I hK (by simp)
      (holdsMembers_object hself (forbidSuspend_ok h).2)
  | template texts holes =>
    intro T s I hK
    refine .bind forbidSuspend_yields fun _ {s₁ h _} => .intro fun hready => ?_
    refine .bind (lowerTemplate_yields hready.base none holes texts hinner T s₁ I hK (by simp)
      (holdsText_template (forbidSuspend_ok h).2)) fun joined => ?_
    cases joined with
    | some t => exact .pure (by simp [tempCells_cons, Expr.suspends])
    | none => exact .weaken literal_yields fun t => by simp [Expr.suspends]
  | unary op operand => exact unary_evaluates (lowerExpr_evaluates operand hinner)
  | binary op left right =>
    obtain ⟨hleft, hright⟩ := accepted_append hinner
    intro T s I hK
    refine .forbid (lowerExpr_evaluates right hright) fun _ hr s₁ => ?_
    refine ((binary_evaluates (lowerExpr_evaluates left hleft) hr).mono fun hb => ?_) T s₁ I hK
    simp only [Expr.suspends, Bool.and_eq_true, Bool.or_eq_true] at hb ⊢
    exact ⟨hb.1, .inl hb.2⟩
  | logical op left right =>
    obtain ⟨hleft, hright⟩ := accepted_append hinner
    rw [Expr.suspends, Bool.and_or_distrib_left]
    exact logical_evaluates (lowerExpr_evaluates left hleft) (lowerExpr_evaluates right hright)
  | conditional test consequent alternate =>
    obtain ⟨hinner, halternate⟩ := accepted_append hinner
    obtain ⟨htest, hconsequent⟩ := accepted_append hinner
    rw [Expr.suspends, Bool.and_or_distrib_left, Bool.and_or_distrib_left]
    exact conditional_evaluates (lowerExpr_evaluates test htest)
      (lowerExpr_evaluates consequent hconsequent) (lowerExpr_evaluates alternate halternate)
  | assign target value =>
    intro T s I hK
    cases target with
    | binding binding =>
      refine .bind (lowerExpr_evaluates value hinner T s I hK) fun v => ?_
      refine .bind (assignBinding_yields (by grind) (by grind)) fun _ => .pure ?_
      rw [Expr.suspends, Pattern.suspends, Bool.false_or]
    | target expr =>
      obtain ⟨hexpr, hvalue⟩ := accepted_append hinner
      rw [Expr.suspends, Pattern.suspends, Bool.and_or_distrib_left]
      exact assignTarget_yields (resolveTarget_yields expr hexpr)
        (lowerExpr_evaluates value hvalue) (by grind)
    | _ =>
      obtain ⟨hpattern, hvalue⟩ := accepted_append hinner
      obtain ⟨hself, hpattern⟩ := List.forall_mem_cons.1 hpattern
      exact assignPattern_yields (lowerExpr_evaluates value hvalue)
        (bindPattern_yields .assign _ hpattern) (outlives_pattern hself) (by grind)
  | compoundAssign op target value =>
    obtain ⟨htarget, hvalue⟩ := accepted_append hinner
    intro T s I hK
    refine .forbid (lowerExpr_evaluates value hvalue) fun _ hv s₁ => ?_
    refine .bind (resolveTarget_yields target htarget _ _ _ hK) fun resolved {s₂ _ _} => ?_
    refine .bind (readTarget_yields (by grind) (by grind)) fun current {s₃ _ _} => ?_
    refine .bind (hv _ s₃ _ (by grind)) fun operand => ?_
    refine .bind (applyBinary_yields (by grind) (by grind)) fun result {s₅ _ _} => ?_
    refine .bind (writeTarget_yields (by grind) (by grind) (by grind)) fun _ => .pure (Set.insert_subset (.inl rfl) ?_)
    rw [Expr.suspends, Bool.and_or_distrib_left]
    exact (keep_or_subset_left hK).trans (by grind)
  | update op inFront target =>
    intro T s I hK
    refine .bind (resolveTarget_yields target hinner _ _ _ hK) fun resolved => ?_
    exact .weaken (update_yields (by grind) (by grind))
      fun t => Set.insert_subset_insert Set.subset_union_right
  | member base name optional =>
    intro T s I hK
    refine .bind (lowerExpr_evaluates base hinner T s I hK) fun object {s₁ _ _} => ?_
    have hkeep : ∀ t, insert (.temp t) (keep (ctx.mayPause && base.suspends) K I) ⊆
        insert (.temp t) (insert (.temp object) (keep (ctx.mayPause && base.suspends) K I)) :=
      fun t => Set.insert_subset_insert (by grind)
    split
    · exact .weaken (optionally_yields (b := false) (by grind) (.inl rfl)
        fun T s' J hJ => getProperty_yields (by grind)) hkeep
    · exact .weaken (getProperty_yields (by grind)) hkeep
  | index base key optional =>
    obtain ⟨hbase, hkey⟩ := accepted_append hinner
    intro T s I hK
    refine .forbid (lowerExpr_evaluates key hkey) fun hnone hk s₁ => ?_
    refine .bind (lowerExpr_evaluates base hbase T s₁ I hK) fun object {s₂ _ _} => ?_
    have haccess : ∀ T s J, insert (.temp object) (keep (ctx.mayPause && base.suspends) K I) ⊆ J →
        YieldsTemp U K ctx T s J (do getItem object (← lowerExpr key)) := by
      intro T s J hJ
      refine .bind (hk T s J (by grind)) fun item => ?_
      exact .weaken (getItem_yields (by grind) (by grind)) (by grind)
    rw [Expr.suspends, Bool.and_or_distrib_left, hnone, Bool.or_false]
    split
    · exact .weaken (optionally_yields (b := false) (by grind) (.inl rfl)
        fun T s' J hJ => haccess T s' J hJ) (by grind)
    · exact .weaken (haccess T s₂ _ subset_rfl) (by grind)
  | call callee args optional =>
    obtain ⟨hcallee, hargs⟩ := accepted_append hinner
    have hfunction := lowerExpr_evaluates callee hcallee
    have hcollects := lowerArgs_collects args hargs
    have hgathers : Gathers U K ctx (arguments args true fun array => lowerArgs array args) :=
      fun T s I hK => arguments_yields hcollects (by grind)
    rw [Expr.suspends, Bool.and_or_distrib_left]
    cases optional with
    | true =>
      cases callee with
      | member base name optional =>
        cases optional with
        | true => exact (optionalCall_evaluates hfunction hgathers).mono (by simp +contextual)
        | false =>
          have hbase := lowerExpr_evaluates base (List.forall_mem_cons.1 hcallee).2
          exact (optionalMethodCall_evaluates hbase hgathers).mono (by simp +contextual [Expr.suspends])
      | _ => exact (optionalCall_evaluates hfunction hgathers).mono (by simp +contextual)
    | false =>
      cases callee with
      | member base name optional =>
        cases optional with
        | true => exact plainCall_evaluates hfunction hcollects
        | false =>
          have hbase := lowerExpr_evaluates base (List.forall_mem_cons.1 hcallee).2
          exact memberCall_evaluates hbase hcollects
      | _ => exact plainCall_evaluates hfunction hcollects
  | superCall args => exact superCall_evaluates (lowerArgs_collects args hinner)
  | newClass className args => exact newClass_evaluates (lowerArgs_collects args hinner)
  | newIntrinsic name args => exact newIntrinsic_evaluates (lowerArgs_collects args hinner)
  | newValue callee args =>
    obtain ⟨hcallee, hargs⟩ := accepted_append hinner
    refine (newValue_evaluates (lowerExpr_evaluates callee hcallee)
      fun T s I hK => arguments_yields (lowerArgs_collects args hargs) (by grind)).mono fun hb => ?_
    simp only [Expr.suspends, Bool.and_eq_true, Bool.or_eq_true] at hb ⊢
    exact ⟨hb.1, .inl hb.2⟩
  | sequence exprs =>
    intro T s I hK
    exact lowerSequence_yields none exprs hinner T s I hK (by simp)
  | await operand =>
    rw [Expr.suspends, Bool.and_true]
    exact await_evaluates (lowerExpr_evaluates operand hinner)
  | yield operand delegates =>
    rw [Expr.suspends, Bool.and_true]
    cases operand with
    | none =>
      exact yieldExpr_evaluates (b := false) (.of_calm fun _ _ _ _ => literal_yields)
    | some operand =>
      exact (yieldExpr_evaluates (lowerExpr_evaluates operand hinner)).mono
        (by simp only [Bool.or_eq_true, Bool.and_eq_true]; tauto)

theorem resolveTarget_yields (e : Expr) (he : ∀ x ∈ e.occurrences, x.Accepted U ctx) :
    ∀ T s I, K ⊆ I → Yields U K ctx (.idle T) s I (resolveTarget e)
      fun target => target.cells ∪ keep (ctx.mayPause && e.suspends) K I := by
  intro T s I hK
  obtain ⟨hself, hinner⟩ := List.forall_mem_cons.1 he
  cases e with
  | ident binding =>
    exact .pure (by simp [Target.cells, Expr.suspends])
  | member base name optional =>
    cases optional with
    | true => exact .decline
    | false =>
      refine .bind (lowerExpr_evaluates base hinner T s I hK) fun object => .pure ?_
      exact subset_rfl
  | index base key optional =>
    cases optional with
    | true => exact .decline
    | false =>
      obtain ⟨hbase, hkey⟩ := accepted_append hinner
      refine .forbid (lowerExpr_evaluates key hkey) fun _ hk s₁ => ?_
      refine .bind (lowerExpr_evaluates base hbase T s₁ I hK) fun object {s₂ _ _} => ?_
      refine .bind (hk T s₂ _ (by grind)) fun item => .pure (Set.union_subset ?_ ?_)
      · simp [Target.cells, Set.insert_subset_iff]
      · rw [Expr.suspends, Bool.and_or_distrib_left]
        exact ((keep_or_subset_left hK).trans (Set.subset_insert ..)).trans (Set.subset_insert ..)
  | _ => exact .decline

theorem lowerSequence_yields (last : Option Temp) (exprs : List Expr)
    (he : ∀ x ∈ Expr.innerList exprs, x.Accepted U ctx) :
    ∀ T s I, K ⊆ I → (exprs = [] → ∀ t, last = some t → .temp t ∈ I) →
      Yields U K ctx (.idle T) s I (lowerSequence last exprs)
        fun t => insert (.temp t) (keep (ctx.mayPause && Expr.anySuspends exprs) K I) := by
  intro T s I hK hlast
  cases exprs with
  | nil =>
    rw [Expr.anySuspends, Bool.and_false]
    cases last with
    | none => exact literal_yields
    | some last => exact .pure (by grind)
  | cons e rest =>
    obtain ⟨he, hrest⟩ := accepted_append he
    rw [lowerSequence, Expr.anySuspends, Bool.and_or_distrib_left]
    refine .bind (lowerExpr_evaluates e he T s I hK) fun value {s₁ _ _} => ?_
    refine .weaken (lowerSequence_yields (some value) rest hrest T s₁ _
      (by grind) (by simp)) (by grind)

theorem lowerTemplate_yields (hU : U ⊆ K) (before : Option Temp) (holes : List Expr)
    (texts : List String) (he : ∀ x ∈ Expr.innerList holes, x.Accepted U ctx) :
    ∀ T s I, K ⊆ I → (∀ t, before = some t → .temp t ∈ I) → HoldsText U ctx before texts holes →
      Yields U K ctx (.idle T) s I (lowerTemplate before holes texts)
        fun joined => tempCells joined.toList ∪
          keep (ctx.mayPause && Expr.anySuspends holes) K I := by
  intro T s I hK hbefore hheld
  cases holes with
  | nil =>
    rw [Expr.anySuspends, Bool.and_false]
    exact concatConstants_yields (by grind)
  | cons hole holes =>
    obtain ⟨hhole, hholes⟩ := accepted_append he
    cases texts with
    | nil =>
      exact .pure (Set.union_subset (tempCells_subset.2 (by simpa using hbefore)) (keep_subset hK))
    | cons text texts =>
      have hlater : Outlives U (ctx.mayPause && Expr.anySuspends holes) := by
        rcases hheld with ⟨-, -, h⟩ | h
        · exact h
        · rw [Expr.anySuspends, Bool.and_or_distrib_left] at h
          exact (Outlives.or_iff.1 h).2
      rw [lowerTemplate, Expr.anySuspends, Bool.and_or_distrib_left]
      refine .bind (concatConstant_yields (by grind)) fun joined {s₁ hjoined _} => ?_
      refine .bind (lowerExpr_evaluates hole hhole T s₁ _ (by grind)) fun v => ?_
      refine .bind (asText_yields (by grind)) fun part => ?_
      refine .bind (concatText_yields (fun t ht => .inr (.inr ?_)) (.inl rfl))
        fun all {s₄ _ _} => ?_
      · rcases hheld with ⟨rfl, htext, -⟩ | h
        · have hempty : text = "" := by simpa using htext
          subst hempty
          cases hjoined
          cases ht
        · rw [Expr.anySuspends, Bool.and_or_distrib_left] at h
          exact (Outlives.or_iff.1 h).1.mem hU (.inl (by simp [ht]))
      refine .weaken (lowerTemplate_yields hU (some all) holes texts hholes T s₄ _
        (by grind) (by simp) (.inr hlater)) (by grind)

theorem lowerElements_yields (hU : U ⊆ K) (leading : List Temp) (elements : List Element)
    (he : ∀ x ∈ Element.inner elements, x.Accepted U ctx) :
    ∀ T s I, K ⊆ I → tempCells leading ⊆ I → HoldsElements U ctx leading elements →
      Yields U K ctx (.idle T) s I (lowerElements leading elements)
        fun t => insert (.temp t) (keep (ctx.mayPause && Element.anySuspends elements) K I) := by
  intro T s I hK hleading hheld
  match elements with
  | [] =>
    rw [Element.anySuspends, Bool.and_false]
    exact reading_yields (tempCells_subset.1 hleading) trivial
  | .item value :: rest =>
    obtain ⟨hvalue, hrest⟩ := accepted_append he
    obtain ⟨hheld, hlater⟩ : tempCells leading ⊆ keep (ctx.mayPause && value.suspends) K I ∧
        Outlives U (ctx.mayPause && Element.anySuspends rest) := by
      rcases hheld with ⟨rfl, _, _, heq, hlater⟩ | h
      · cases heq
        exact ⟨by simp, hlater⟩
      · rw [Element.anySuspends, Bool.and_or_distrib_left, Outlives.or_iff] at h
        exact ⟨h.1.cells hU hleading, h.2⟩
    rw [lowerElements, Element.anySuspends, Bool.and_or_distrib_left]
    refine .operand (lowerExpr_evaluates value hvalue) hK fun t s₁ => ?_
    refine .weaken (lowerElements_yields hU (leading ++ [t]) rest hrest T s₁ _
      (by grind) ?_ (.inr hlater)) (by grind)
    · rw [tempCells_append]
      exact Set.union_subset (by grind) (by simp [tempCells_cons])
  | .hole :: rest =>
    have hlater : Outlives U (ctx.mayPause && Element.anySuspends rest) := by
      rcases hheld with ⟨-, _, _, heq, -⟩ | h
      · cases heq
      · exact h
    rw [lowerElements, Element.anySuspends]
    refine .bind literal_yields fun t => ?_
    refine .bind (asObject_yields (by grind)) fun u {s₂ _ _} => ?_
    refine .weaken (lowerElements_yields hU (leading ++ [u]) rest he T s₂ _ (hK.trans (by grind)) ?_
      (.inr hlater)) (by grind)
    rw [tempCells_append]
    exact Set.union_subset (hleading.trans (by grind)) (by simp [tempCells_cons])
  | .spread value :: rest =>
    obtain ⟨hvalue, hrest⟩ := accepted_append he
    obtain ⟨hnow, hlater⟩ : Outlives U (ctx.mayPause && value.suspends) ∧
        Outlives U (ctx.mayPause && Element.anySuspends rest) := by
      rcases hheld with ⟨-, _, _, heq, -⟩ | h
      · cases heq
      · rwa [Element.anySuspends, Bool.and_or_distrib_left, Outlives.or_iff] at h
    rw [lowerElements, Element.anySuspends, Bool.and_or_distrib_left]
    refine .bind (reading_yields (by grind) trivial) fun array => ?_
    refine .operand (lowerExpr_evaluates value hvalue) (by grind) fun iterable s₂ => ?_
    have harray := hnow.mem hU (Set.mem_insert (Cell.temp array) I)
    refine .bind (.perform (by simp [Effect.uses, harray])) fun _ {s₃ _ _} => ?_
    refine .bind (appendElements_yields hU array rest hrest T s₃ _ (by grind)
      (.inr harray) hlater) fun _ => .pure (Set.insert_subset (hlater.mem hU (.inr harray)) ?_)
    rw [← keep_keep]
    exact keep_mono (by grind)

theorem appendElements_yields (hU : U ⊆ K) (array : Temp) (elements : List Element)
    (he : ∀ x ∈ Element.inner elements, x.Accepted U ctx) :
    ∀ T s I, K ⊆ I → .temp array ∈ I →
      Outlives U (ctx.mayPause && Element.anySuspends elements) →
      Yields U K ctx (.idle T) s I (appendElements array elements)
        fun _ => keep (ctx.mayPause && Element.anySuspends elements) K I := by
  intro T s I hK harray hheld
  match elements with
  | [] => exact .pure (by grind)
  | .item value :: rest | .spread value :: rest =>
    obtain ⟨hvalue, hrest⟩ := accepted_append he
    rw [Element.anySuspends, Bool.and_or_distrib_left] at hheld ⊢
    obtain ⟨hnow, hlater⟩ := Outlives.or_iff.1 hheld
    rw [appendElements]
    refine .operand (lowerExpr_evaluates value hvalue) hK fun t s₁ => ?_
    have harray := hnow.mem hU harray
    refine .bind (.perform (by simp [Effect.uses, harray])) fun _ {s₂ _ _} => ?_
    refine .weaken (appendElements_yields hU array rest hrest T s₂ _
      (by grind) (.inr harray) hlater) (by grind)
  | .hole :: rest =>
    rw [Element.anySuspends] at hheld ⊢
    refine .bind literal_yields fun t => ?_
    refine .bind (.perform (by simp [Effect.uses, harray])) fun _ {s₂ _ _} => ?_
    exact .weaken (appendElements_yields hU array rest he T s₂ _ (by grind)
      (.inr harray) hheld) (by grind)

theorem lowerMembers_yields (hU : U ⊆ K) (leading : List (String × Temp)) (members : List Member)
    (he : ∀ x ∈ Member.inner members, x.Accepted U ctx) :
    ∀ T s I, K ⊆ I → tempCells (leading.map Prod.snd) ⊆ I → HoldsMembers U ctx leading members →
      Yields U K ctx (.idle T) s I (lowerMembers leading members)
        fun t => insert (.temp t) (keep (ctx.mayPause && Member.anySuspends members) K I) := by
  intro T s I hK hleading hheld
  match members with
  | [] =>
    rw [Member.anySuspends, Bool.and_false]
    exact reading_yields (tempCells_subset.1 hleading) trivial
  | .named name value :: rest =>
    obtain ⟨hvalue, hrest⟩ := accepted_append he
    obtain ⟨hheld, hlater⟩ :
        tempCells (leading.map Prod.snd) ⊆ keep (ctx.mayPause && value.suspends) K I ∧
        Outlives U (ctx.mayPause && Member.anySuspends rest) := by
      rcases hheld with ⟨rfl, _, _, _, heq, hlater⟩ | h
      · cases heq
        exact ⟨by simp, hlater⟩
      · rw [Member.anySuspends, Bool.and_or_distrib_left, Outlives.or_iff] at h
        exact ⟨h.1.cells hU hleading, h.2⟩
    rw [lowerMembers, Member.anySuspends, Bool.and_or_distrib_left]
    refine .operand (lowerExpr_evaluates value hvalue) hK fun t s₁ => ?_
    refine .weaken (lowerMembers_yields hU (leading ++ [(name, t)]) rest hrest T s₁ _
      (by grind) ?_ (.inr hlater)) (by grind)
    · rw [List.map_append, tempCells_append]
      exact Set.union_subset (by grind) (by simp [tempCells_cons])
  | .computed key value :: rest =>
    obtain ⟨he, hrest⟩ := accepted_append he
    obtain ⟨hkey, hvalue⟩ := accepted_append he
    obtain ⟨⟨hfirst, hsecond⟩, hlater⟩ : (Outlives U (ctx.mayPause && key.suspends) ∧
        Outlives U (ctx.mayPause && value.suspends)) ∧
        Outlives U (ctx.mayPause && Member.anySuspends rest) := by
      rcases hheld with ⟨-, _, _, _, heq, -⟩ | h
      · cases heq
      · rwa [Member.anySuspends, Bool.and_or_distrib_left, Bool.and_or_distrib_left,
          Outlives.or_iff, Outlives.or_iff] at h
    rw [lowerMembers, Member.anySuspends, Bool.and_or_distrib_left, Bool.and_or_distrib_left]
    refine .bind (reading_yields (by grind) trivial) fun object {s₁ _ _} => ?_
    refine setComputed_yields (lowerExpr_evaluates key hkey) (lowerExpr_evaluates value hvalue) hU
      (by grind) (.inl rfl) hfirst hsecond fun s₂ J hJ hobject => ?_
    refine .bind (addMembers_yields hU object rest hrest T s₂ J (by grind)
      hobject hlater) fun _ => .pure (Set.insert_subset (hlater.mem hU hobject) ?_)
    rw [← keep_keep]
    exact keep_mono (by grind)
  | .spread value :: rest =>
    obtain ⟨hvalue, hrest⟩ := accepted_append he
    obtain ⟨hnow, hlater⟩ : Outlives U (ctx.mayPause && value.suspends) ∧
        Outlives U (ctx.mayPause && Member.anySuspends rest) := by
      rcases hheld with ⟨-, _, _, _, heq, -⟩ | h
      · cases heq
      · rwa [Member.anySuspends, Bool.and_or_distrib_left, Outlives.or_iff] at h
    rw [lowerMembers, Member.anySuspends, Bool.and_or_distrib_left]
    refine .bind (reading_yields (by grind) trivial) fun object {s₁ _ _} => ?_
    refine .operand (lowerExpr_evaluates value hvalue) (by grind) fun source s₂ => ?_
    have hobject := hnow.mem hU (Set.mem_insert (Cell.temp object) I)
    refine .bind (reading_yields (by grind) trivial) fun _ {s₃ _ _} => ?_
    refine .bind (addMembers_yields hU object rest hrest T s₃ _ (by grind)
      (.inr (.inr hobject)) hlater)
      fun _ => .pure (Set.insert_subset (hlater.mem hU (.inr (.inr hobject))) ?_)
    rw [← keep_keep]
    exact keep_mono (by grind)

theorem addMembers_yields (hU : U ⊆ K) (object : Temp) (members : List Member)
    (he : ∀ x ∈ Member.inner members, x.Accepted U ctx) :
    ∀ T s I, K ⊆ I → .temp object ∈ I →
      Outlives U (ctx.mayPause && Member.anySuspends members) →
      Yields U K ctx (.idle T) s I (addMembers object members)
        fun _ => keep (ctx.mayPause && Member.anySuspends members) K I := by
  intro T s I hK hobject hheld
  match members with
  | [] => exact .pure (by grind)
  | .named name value :: rest =>
    obtain ⟨hvalue, hrest⟩ := accepted_append he
    rw [Member.anySuspends, Bool.and_or_distrib_left] at hheld ⊢
    obtain ⟨hnow, hlater⟩ := Outlives.or_iff.1 hheld
    refine .operand (lowerExpr_evaluates value hvalue) hK fun t s₁ => ?_
    have hobject := hnow.mem hU hobject
    refine .bind (.perform (by simp [Effect.uses, hobject])) fun _ {s₂ _ _} => ?_
    refine .weaken (addMembers_yields hU object rest hrest T s₂ _
      (by grind) (.inr hobject) hlater) (by grind)
  | .computed key value :: rest =>
    obtain ⟨he, hrest⟩ := accepted_append he
    obtain ⟨hkey, hvalue⟩ := accepted_append he
    rw [Member.anySuspends, Bool.and_or_distrib_left, Bool.and_or_distrib_left] at hheld ⊢
    obtain ⟨hheld, hlater⟩ := Outlives.or_iff.1 hheld
    obtain ⟨hfirst, hsecond⟩ := Outlives.or_iff.1 hheld
    refine setComputed_yields (lowerExpr_evaluates key hkey) (lowerExpr_evaluates value hvalue) hU
      hK hobject hfirst hsecond fun s₁ J hJ hobject => ?_
    refine .weaken (addMembers_yields hU object rest hrest T s₁ J (by grind)
      hobject hlater) (by grind)
  | .spread value :: rest =>
    obtain ⟨hvalue, hrest⟩ := accepted_append he
    rw [Member.anySuspends, Bool.and_or_distrib_left] at hheld ⊢
    obtain ⟨hnow, hlater⟩ := Outlives.or_iff.1 hheld
    refine .operand (lowerExpr_evaluates value hvalue) hK fun source s₁ => ?_
    have hobject := hnow.mem hU hobject
    refine .bind (reading_yields (by grind) trivial) fun _ {s₂ _ _} => ?_
    refine .weaken (addMembers_yields hU object rest hrest T s₂ _ (by grind)
      (.inr (.inr hobject)) hlater) (by grind)

theorem bindPattern_yields (mode : BindMode) (p : Pattern) (hp : ∀ x ∈ p.inner, x.Accepted U ctx) :
    ∀ T s I v, U ⊆ K → K ⊆ I → .temp v ∈ I → Outlives U (ctx.mayPause && p.holdsTarget) →
      Yields U K ctx (.idle T) s I (bindPattern mode p v)
        fun _ => keep (ctx.mayPause && p.holdsTarget) K I := by
  intro T s I v hU hK hv hheld
  cases p with
  | binding binding =>
    exact .weaken (storeBinding_yields (by grind) (by grind)) (by grind)
  | target expr =>
    refine .bind (resolveTarget_yields expr hp T s I hK) fun target => ?_
    exact .weaken (writeTarget_yields (by grind)
      Set.subset_union_left (.inr (hheld.mem hU hv))) fun _ => Set.subset_union_right
  | withDefault inner default =>
    obtain ⟨hinner, hdefault⟩ := accepted_append hp
    refine .forbid (lowerExpr_evaluates default hdefault) fun _ hd s₁ => ?_
    refine .bind (valueOrDefault_yields hK hv hd) fun value {s₂ _ _} => ?_
    exact .weaken (bindPattern_yields mode inner hinner T s₂ _ value hU (by grind) (.inl rfl) hheld)
      fun _ => keep_mono (by grind)
  | object properties rest =>
    obtain ⟨hproperties, hrest⟩ := accepted_object hp
    rw [Pattern.holdsTarget, Bool.and_false, bindPattern]
    refine destructure_yields hK hv (fun source s J hJ hsource hnone =>
      bindProperties_yields mode source properties hproperties T s J hU hJ hsource (quiet_object hnone).1)
      fun source s J hJ hsource hnone => ?_
    cases rest with
    | none => exact .pure (by grind)
    | some rest =>
      have hquiet := quiet_pattern ((quiet_object hnone).2 rest rfl)
      refine .bind (objectRest_yields (by grind)) fun value {s₁ _ _} => ?_
      refine .weaken (bindPattern_yields mode rest (hrest rest rfl) T s₁ _ value hU
        (by grind) (.inl rfl) (.of_false hquiet)) (by grind)
  | array elements rest =>
    obtain ⟨helements, hrest⟩ := accepted_array hp
    rw [Pattern.holdsTarget, Bool.and_false, bindPattern]
    refine destructure_yields hK hv (fun source s J hJ hsource hnone =>
      bindElements_yields mode source 0 elements helements T s J hU hJ hsource (quiet_array hnone).1)
      fun source s J hJ hsource hnone => ?_
    cases rest with
    | none => exact .pure (by grind)
    | some rest =>
      have hquiet := quiet_pattern ((quiet_array hnone).2 rest rfl)
      refine .bind (arrayRest_yields (by grind)) fun value {s₁ _ _} => ?_
      refine .weaken (bindPattern_yields mode rest (hrest rest rfl) T s₁ _ value hU
        (by grind) (.inl rfl) (.of_false hquiet)) (by grind)

theorem bindProperties_yields (mode : BindMode) (source : Temp)
    (properties : List (String × Pattern))
    (hp : ∀ x ∈ Pattern.innerProperties properties, x.Accepted U ctx) :
    ∀ T s I, U ⊆ K → K ⊆ I → .temp source ∈ I →
      (ctx.mayPause && Pattern.anyPropertySuspends properties) = false →
      Keeps U K ctx T s I (bindProperties mode source properties) := by
  intro T s I hU hK hsource hnone
  match properties with
  | [] => exact .pure (by grind)
  | (key, inner) :: rest =>
    obtain ⟨hinner, hrest⟩ := accepted_append hp
    rw [Pattern.anyPropertySuspends, Bool.and_or_distrib_left, Bool.or_eq_false_iff] at hnone
    refine .bind (reading_yields (by grind) trivial) fun value {s₁ _ _} => ?_
    have hquiet := quiet_pattern hnone.1
    refine .bind (bindPattern_yields mode inner hinner T s₁ _ value hU
      (by grind) (.inl rfl) (.of_false hquiet)) fun _ {s₂ _ _} => ?_
    rw [hquiet]
    exact .supply (bindProperties_yields mode source rest hrest T s₂ I hU hK hsource hnone.2) (by grind)

theorem bindElements_yields (mode : BindMode) (source : Temp) (position : Nat)
    (elements : List (Option Pattern))
    (hp : ∀ x ∈ Pattern.innerElements elements, x.Accepted U ctx) :
    ∀ T s I, U ⊆ K → K ⊆ I → .temp source ∈ I →
      (ctx.mayPause && Pattern.anyElementSuspends elements) = false →
      Keeps U K ctx T s I (bindElements mode source position elements) := by
  intro T s I hU hK hsource hnone
  match elements with
  | [] => exact .pure (by grind)
  | none :: rest => exact bindElements_yields mode source (position + 1) rest hp T s I hU hK hsource hnone
  | some inner :: rest =>
    obtain ⟨hinner, hrest⟩ := accepted_append hp
    rw [Pattern.anyElementSuspends, Bool.and_or_distrib_left, Bool.or_eq_false_iff] at hnone
    refine .bind (patternItem_yields (by grind)) fun value {s₁ _ _} => ?_
    have hquiet := quiet_pattern hnone.1
    refine .bind (bindPattern_yields mode inner hinner T s₁ _ value hU
      (by grind) (.inl rfl) (.of_false hquiet)) fun _ {s₂ _ _} => ?_
    rw [hquiet]
    exact .supply (bindElements_yields mode source (position + 1) rest hrest T s₂ I hU hK hsource
      hnone.2) (by grind)

theorem lowerArgs_collects (args : List Argument)
    (he : ∀ x ∈ Argument.inner args, x.Accepted U ctx) :
    CollectsArgs U K ctx args fun array => lowerArgs array args := by
  intro hrest T s I array hK hfirst harray
  cases args with
  | nil => exact .pure (by grind)
  | cons arg rest =>
    have hnone : (ctx.mayPause && Argument.anySuspends rest) = false := by
      simpa [Argument.anySuspends_eq] using hrest
    have hlater : (ctx.mayPause && Expr.anySuspends ((rest.map Argument.expr).drop 1)) = false := by
      rw [Argument.anySuspends_eq, anySuspends_eq_first, Bool.and_or_distrib_left] at hnone
      exact (Bool.or_eq_false_iff.1 hnone).2
    cases arg with
    | plain value | spread value =>
      obtain ⟨hvalue, hothers⟩ := accepted_append he
      have hcollects := lowerArgs_collects rest hothers hlater
      rw [hnone] at hcollects
      have hflag : (ctx.mayPause && (value.suspends || Argument.anySuspends rest))
          = (ctx.mayPause && value.suspends) := by
        rw [Bool.and_or_distrib_left, hnone, Bool.or_false]
      rw [Argument.anySuspends, hflag] at hfirst ⊢
      exact argument_yields (lowerExpr_evaluates value hvalue) hK hfirst harray (fun _ _ => rfl)
        fun s J hJ harray => hcollects T s J array hJ (by simp) harray

end

end Lower

end ScriptLowering
