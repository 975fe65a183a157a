import ScriptLowering.Proofs.Course.Step
import ScriptLowering.Proofs.Emission.Call

/-!
# When operands are converted

A binary operator evaluates its left operand, then its right one, then converts both and combines
them. Arithmetic does not keep to this: the left operand is converted before the right one is
evaluated. That can be told apart if the conversion has an effect, which a bare double rules out. A
compound assignment converts nothing before both operands are there, whatever its operator.

Converting the result of a dynamic addition may be fused with it, so code is compared up to fusion.

## Main results

* `Lower.applyBinary_combines`: both values are converted, the left one first, and then combined;
* `Lower.lowerExpr_operandOrder`: the order in which binary operators and compound assignments do
  this.
-/

namespace ScriptLowering

namespace Session

/-- The code, up to fused additions. -/
def plainCode (s : Session) : List Instr :=
  s.code.toList.map Instr.unfused

/-- The value is converted by this coercion, if it has to be. -/
def Converts (s : Session) (kind : Coercion) (value result : Temp) (s' : Session) : Prop :=
  result = value ∧ s'.plainCode = s.plainCode ∨
    s'.plainCode = s.plainCode ++ [.define result (.coerce kind value)]

theorem Converts.refl (s : Session) (kind : Coercion) (value : Temp) :
    s.Converts kind value value s :=
  .inl ⟨rfl, rfl⟩

end Session

/-- Operators of the class convert both values by the coercion, and then combine them by the
operation. -/
inductive OperatorClass.Combines (l r : Temp) : OperatorClass → Coercion → Operation → Prop
  | concat : Combines l r .addition .toText (.concat l r)
  | sum : Combines l r .addition .toNumber (.numeric .add l r)
  | add : Combines l r .addition .toObject (.add l r)
  | arithmetic {op : NumericOp} : Combines l r (.arithmetic op) .toNumber (.numeric op l r)
  | compare {op : DynamicOp} {test : CompareOp} (h : op.onNumbers? = some test) :
      Combines l r (.relation op) .toNumber (.compare test l r)
  | relation {op : DynamicOp} : Combines l r (.relation op) .toObject (.dynamic op l r)

theorem OperatorClass.Combines.ne_addToNumber {l r l' r' : Temp} {c : OperatorClass}
    {kind : Coercion} {op : Operation} (h : c.Combines l r kind op) : op ≠ .addToNumber l' r' := by
  cases h <;> nofun

namespace Session

/-- The values are converted, the left one first, and then combined. -/
def Combines (s : Session) (op : BinaryOp) (left right result : Temp) (s' : Session) : Prop :=
  ∃ kind l s₁ r s₂ operation, s.Converts kind left l s₁ ∧ s₁.Converts kind right r s₂ ∧
    op.operatorClass.Combines l r kind operation ∧
    s'.plainCode = s₂.plainCode ++ [.define result operation]

end Session

namespace Lower

open Session

variable {ctx : Context} {s s' : Session} {op : BinaryOp} {left right value t : Temp}
    {storage : Storage}

theorem forbidSuspend_bind_ok {exprs : List Expr} {f : Unit → Lower Temp}
    (h : (forbidSuspend exprs >>= f) ctx s = .ok t s') : f () ctx s = .ok t s' := by
  obtain ⟨_, s₁, hforbid, hrest⟩ := bind_ok h
  obtain ⟨rfl, -⟩ := forbidSuspend_ok hforbid
  exact hrest

theorem define_plainCode {operation : Operation} (h : define storage operation ctx s = .ok t s')
    (hplain : ∀ l r, operation ≠ .addToNumber l r) :
    s'.plainCode = s.plainCode ++ [.define t operation] := by
  cases h
  simp only [plainCode, Array.toList_push, List.map_append, List.map_cons, List.map_nil]
  unfold Instr.unfused
  split <;> simp_all

/-- The step converts the value. -/
def Converting (kind : Coercion) (value : Temp) (m : Lower Temp) : Prop :=
  ∀ ⦃ctx s t s'⦄, m ctx s = .ok t s' → s.Converts kind value t s'

/-- The step converts and combines the values. -/
def Combining (op : BinaryOp) (left right : Temp) (m : Lower Temp) : Prop :=
  ∀ ⦃ctx s t s'⦄, m ctx s = .ok t s' → s.Combines op left right t s'

/-- A step that looks up the storage of a temp first. -/
theorem Combining.storageOf_bind {f : Storage → Lower Temp}
    (h : ∀ storage, Combining op left right (f storage)) :
    Combining op left right (storageOf value >>= f) :=
  fun _ _ _ _ hrun => h _ hrun

theorem coerce_converts {test : Storage → Bool} {target : Storage → Storage}
    {kind : Storage → Coercion} (h : (do
      let storage ← storageOf value
      if test storage then return value
      define (target storage) (.coerce (kind storage) value) : Lower Temp) ctx s = .ok t s') :
    ∃ storage, s.Converts (kind storage) value t s' := by
  obtain ⟨storage, _, hstorage, hrest⟩ := bind_ok h
  cases hstorage
  split at hrest
  · cases hrest
    exact ⟨.object, .refl _ _ _⟩
  · exact ⟨_, .inr (define_plainCode hrest (by simp))⟩

theorem asObject_converts : Converting .toObject value (asObject value) :=
  fun _ _ _ _ h => (coerce_converts h).elim fun _ h => h

theorem asText_converts : Converting .toText value (asText value) :=
  fun _ _ _ _ h => (coerce_converts h).elim fun _ h => h

theorem asNumber_converts : Converting .toNumber value (asNumber value) := by
  intro ctx s t s' h
  obtain ⟨storage, _, hstorage, hrest⟩ := bind_ok h
  cases hstorage
  split at hrest
  · cases hrest
    exact .refl _ _ _
  replace hrest := get_ok hrest
  cases hadded : justAdded? s value with
  | none =>
    rw [hadded] at hrest
    exact .inr (define_plainCode hrest (by simp))
  | some operands =>
    rw [hadded] at hrest
    obtain ⟨_, -, hfuse⟩ := require_bind_ok (get_ok hrest)
    cases hfuse
    obtain ⟨before, hcode⟩ := justAdded?_eq_some hadded
    exact .inl ⟨rfl, by simp [plainCode, fuseAddition, hcode, Instr.unfused]⟩

/-- Two conversions and an operation on their results. -/
theorem Combining.of_conversions {f : Temp → Lower Temp} {operation : Temp → Temp → Operation}
    {kind : Coercion} (hf : ∀ t, Converting kind t (f t))
    (hop : ∀ l r, op.operatorClass.Combines l r kind (operation l r)) : Combining op left right (do
      let l ← f left
      let r ← f right
      define storage (operation l r)) := by
  intro ctx s t s' h
  obtain ⟨l, s₁, hl, hrest⟩ := bind_ok h
  obtain ⟨r, s₂, hr, hdefine⟩ := bind_ok hrest
  exact ⟨kind, l, s₁, r, s₂, _, hf left hl, hf right hr, hop l r,
    define_plainCode hdefine fun _ _ => (hop l r).ne_addToNumber⟩

theorem applyBinary_combines : Combining op left right (applyBinary op left right) := by
  unfold applyBinary
  split
  · rename_i hclass
    refine .storageOf_bind fun l => .storageOf_bind fun r => ?_
    split
    · exact .of_conversions (fun _ => asText_converts) fun _ _ => hclass ▸ .concat
    split
    · exact .of_conversions (fun _ => asNumber_converts) fun _ _ => hclass ▸ .sum
    · exact .of_conversions (fun _ => asObject_converts) fun _ _ => hclass ▸ .add
  · rename_i hclass
    exact .of_conversions (fun _ => asNumber_converts) fun _ _ => hclass ▸ .arithmetic
  · rename_i hclass
    refine .storageOf_bind fun l => .storageOf_bind fun r => ?_
    dsimp only
    split
    · rename_i htest
      intro ctx s t s' h
      have hcombines := OperatorClass.Combines.compare (l := left) (r := right) htest
      exact ⟨_, left, s, right, s, _, .refl _ _ _, .refl _ _ _, hclass ▸ hcombines,
        define_plainCode h (by simp)⟩
    · exact .of_conversions (fun _ => asObject_converts) fun _ _ => hclass ▸ .relation

/-- A binary operator evaluates its operands from left to right and then converts and combines them;
only arithmetic converts the left operand, unless it is a bare double, before the right one is
evaluated. A compound assignment with the same operator converts nothing before both operands are
evaluated. -/
theorem lowerExpr_operandOrder {ctx : Context} {s : Session} {op : BinaryOp} {left right : Expr} :
    (∀ t s', lowerExpr (.binary op left right) ctx s = .ok t s' →
      ∃ l s₁ l' s₁' r s₂, lowerExpr left ctx s = .ok l s₁ ∧ s₁.Converts .toNumber l l' s₁' ∧
        ((∀ numeric, op.operatorClass = .arithmetic numeric → s₁.temps[l.index]? = some .double) →
          l' = l ∧ s₁' = s₁) ∧
        lowerExpr right ctx s₁' = .ok r s₂ ∧ s₂.Combines op l' r t s') ∧
    ∀ t s', lowerExpr (.compoundAssign op left right) ctx s = .ok t s' →
      ∃ target s₁ l s₂ r s₃ s₄, resolveTarget left ctx s = .ok target s₁ ∧
        readTarget target ctx s₁ = .ok l s₂ ∧ lowerExpr right ctx s₂ = .ok r s₃ ∧
        s₃.Combines op l r t s₄ ∧ writeTarget target t ctx s₄ = .ok () s' := by
  constructor
  · intro t s' h
    rw [lowerExpr] at h
    replace h := forbidSuspend_bind_ok h
    unfold binary at h
    cases hclass : op.operatorClass with
    | arithmetic numeric =>
      rw [hclass] at h
      obtain ⟨l, s₁, hl, hrest⟩ := bind_ok h
      obtain ⟨l', s₁', hl', hrest⟩ := bind_ok hrest
      obtain ⟨r, s₂, hr, hrest⟩ := bind_ok hrest
      obtain ⟨r', s₃, hr', hrest⟩ := bind_ok hrest
      refine ⟨l, s₁, l', s₁', r, s₂, hl, asNumber_converts hl', fun hdouble => ?_, hr,
        _, l', s₂, r', s₃, _, .refl _ _ _, asNumber_converts hr', hclass ▸ .arithmetic,
        define_plainCode hrest (by simp)⟩
      cases (asNumber_run (hdouble numeric rfl) rfl).symm.trans hl'
      exact ⟨rfl, rfl⟩
    | _ =>
      rw [hclass] at h
      obtain ⟨l, s₁, hl, hrest⟩ := bind_ok h
      obtain ⟨r, s₂, hr, happly⟩ := bind_ok hrest
      exact ⟨l, s₁, l, s₁, r, s₂, hl, .refl _ _ _, fun _ => ⟨rfl, rfl⟩, hr,
        applyBinary_combines happly⟩
  · intro t s' h
    rw [lowerExpr] at h
    obtain ⟨target, s₁, htarget, hrest⟩ := bind_ok (forbidSuspend_bind_ok h)
    obtain ⟨l, s₂, hl, hrest⟩ := bind_ok hrest
    obtain ⟨r, s₃, hr, hrest⟩ := bind_ok hrest
    obtain ⟨_, s₄, happly, hrest⟩ := bind_ok hrest
    obtain ⟨_, _, hwrite, hrest⟩ := bind_ok hrest
    cases hrest
    exact ⟨target, s₁, l, s₂, r, s₃, s₄, htarget, hl, hr, applyBinary_combines happly, hwrite⟩

end Lower

/-- `return left() - right();` -/
def leftMinusRight : Function where
  name := "f"
  kind := .function
  scope := ScopeTree.global
  body := [.ret (some (.binary .sub (.call (.intrinsic "left") [] false)
    (.call (.intrinsic "right") [] false)))]

/-- The result of the first call is converted before the second call. -/
theorem Function.lower_convertsEarly :
    (leftMinusRight.lower (.ofModule "m") {} {}).result.toOption.map (·.code.take 4) =
      some [.define ⟨0⟩ (.callGlobal "left" []), .define ⟨1⟩ (.coerce .toNumber ⟨0⟩),
        .define ⟨2⟩ (.callGlobal "right" []), .define ⟨3⟩ (.coerce .toNumber ⟨2⟩)] := by
  decide +kernel

end ScriptLowering
