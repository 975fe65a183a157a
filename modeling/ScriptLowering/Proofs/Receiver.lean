import ScriptLowering.Proofs.OperandOrder

/-!
# Receivers of method calls

A call of a member is made on the object that the member is read from. The object is evaluated once,
in front of the arguments, and the one instruction that makes the call has it as its receiver. If
the call is optional, a method that is null or undefined skips the arguments and the call, and
`undefined` is the result.

This holds for members that are accessed by name and not optionally. The value of any other callee
is called without a receiver; `Function.lower_losesReceiver` shows one.

## Main results

* `Lower.optionally_guards`: what is skipped if a value is null or undefined;
* `Lower.lowerExpr_callsOnReceiver`: calls of members.
-/

namespace ScriptLowering

/-- The receiver of a call. -/
def Operation.receiver? : Operation → Option Temp
  | .callMethodValue _ receiver _ _ | .callMember receiver _ _ | .callMemberFixed receiver _ _
  | .callTyped _ _ _ _ receiver _ => some receiver
  | _ => none

/-- The instruction makes a call. -/
def Instr.calls : Instr → Bool
  | .define _ op => op.isCall
  | _ => false

namespace Session

/-- One call is made, on the receiver, and it is made last. -/
def CallsOn (s : Session) (receiver result : Temp) (s' : Session) : Prop :=
  ∃ new op, s'.plainCode = s.plainCode ++ new ++ [.define result op] ∧
    op.receiver? = some receiver ∧ ∀ i ∈ new, i.calls = false

theorem CallsOn.of_define {s s' : Session} {op : Operation} {receiver result : Temp}
    (h : s'.plainCode = s.plainCode ++ [.define result op]) (hop : op.receiver? = some receiver) :
    s.CallsOn receiver result s' :=
  ⟨[], op, by simpa using h, hop, by simp⟩

/-- The value is converted and put into the slot. -/
def Stores (s : Session) (slot : Slot) (value : Temp) (s' : Session) : Prop :=
  ∃ kind stored s₁, s.Converts kind value stored s₁ ∧
    s'.plainCode = s₁.plainCode ++ [.perform (.storeSlot slot stored)]

/-- The code between `s₁` and `s₂`, which yields `inner`, is skipped if the value is null or
undefined. Then the result is `undefined`, else it is that of the code. -/
def Guards (s : Session) (value : Temp) (s₁ : Session) (inner : Temp) (s₂ : Session) (result : Temp)
    (s' : Session) : Prop :=
  ∃ (value' nullish missing : Temp) (slot : Slot) (absent finish : Label) (s₀ s₃ s₄ s₅ : Session),
    s.Converts .toObject value value' s₀ ∧
    s₁.plainCode = s₀.plainCode ++ [.define nullish (.isNullish value'),
      .branchIf true nullish absent] ∧
    s₂.Stores slot inner s₃ ∧
    s₄.plainCode = s₃.plainCode ++
      [.branch finish, .label absent, .define missing (.literal .undefined)] ∧
    s₄.Stores slot missing s₅ ∧
    s'.plainCode = s₅.plainCode ++ [.label finish, .define result (.loadSlot slot)]

end Session

namespace Lower

open Session

variable {ctx : Context} {s s₁ s' : Session} {α β : Type} {receiver value t : Temp} {name : String}
  {args : Arguments} {op : Operation}

/-! ### Guarded code -/

theorem coerceTo_converts {storage : Storage} (h : coerceTo storage value ctx s = .ok t s') :
    ∃ kind, s.Converts kind value t s' := by
  unfold coerceTo at h
  split at h
  · exact ⟨_, asNumber_converts h⟩
  split at h
  · obtain ⟨_, h⟩ := coerce_converts h
    exact ⟨_, h⟩
  · exact ⟨_, asObject_converts h⟩

theorem storeSlot_stores {slot : Slot} {u : Unit} (h : storeSlot slot value ctx s = .ok u s') :
    s.Stores slot value s' := by
  obtain ⟨_, _, hstorage, hrest⟩ := bind_ok h
  cases hstorage
  obtain ⟨stored, s₁, hstored, hrest⟩ := bind_ok hrest
  cases hrest
  obtain ⟨kind, hconverts⟩ := coerceTo_converts hstored
  exact ⟨kind, stored, s₁, hconverts, by simp [plainCode, Instr.unfused]⟩

theorem optionally_guards {object : Temp} {access : Lower Temp}
    (h : optionally object access ctx s = .ok t s') :
    ∃ s₁ inner s₂, access ctx s₁ = .ok inner s₂ ∧ s.Guards object s₁ inner s₂ t s' := by
  obtain ⟨carrier, _, hcarrier, hrest⟩ := bind_ok h
  cases hcarrier
  obtain ⟨absent, _, habsent, hrest⟩ := bind_ok hrest
  cases habsent
  obtain ⟨finish, _, hfinish, hrest⟩ := bind_ok hrest
  cases hfinish
  obtain ⟨value, s₀, hvalue, hrest⟩ := bind_ok hrest
  have hconverts := asObject_converts hvalue
  obtain ⟨nullish, _, hnullish, hrest⟩ := bind_ok hrest
  cases hnullish
  obtain ⟨_, s₁, hbranch, hrest⟩ := bind_ok hrest
  obtain ⟨inner, s₂, hinner, hrest⟩ := bind_ok hrest
  obtain ⟨_, s₃, hstore, hrest⟩ := bind_ok hrest
  obtain ⟨_, _, hjump, hrest⟩ := bind_ok hrest
  cases hjump
  obtain ⟨_, _, hplace, hrest⟩ := bind_ok hrest
  cases hplace
  obtain ⟨missing, s₄, hmissing, hrest⟩ := bind_ok hrest
  obtain ⟨_, s₅, hstore', hrest⟩ := bind_ok hrest
  obtain ⟨_, _, hplace, hload⟩ := bind_ok hrest
  cases hplace
  cases hbranch
  cases hmissing
  cases hload
  refine ⟨_, inner, s₂, hinner, value, ⟨s₀.temps.size⟩, ⟨s₃.temps.size⟩, ⟨s.slots.size⟩,
    ⟨s.labelCount⟩,
    ⟨s.labelCount + 1⟩, s₀, s₃, _, s₅, hconverts, ?_, storeSlot_stores hstore, ?_,
    storeSlot_stores hstore', ?_⟩
  all_goals simp [plainCode, Instr.unfused]

/-! ### Calls -/

/-- The step adds instructions that make no call. -/
def Uncalling (m : Lower α) : Prop :=
  ∀ ⦃ctx s a s'⦄, m ctx s = .ok a s' →
    ∃ new, s'.plainCode = s.plainCode ++ new ∧ ∀ i ∈ new, i.calls = false

theorem Uncalling.bind {m : Lower α} {f : α → Lower β} (hm : Uncalling m)
    (hf : ∀ a, Uncalling (f a)) : Uncalling (m >>= f) := by
  intro ctx s b s' h
  obtain ⟨a, s₁, hrun, hrest⟩ := bind_ok h
  obtain ⟨new, hcode, hnew⟩ := hm hrun
  obtain ⟨new', hcode', hnew'⟩ := hf a hrest
  refine ⟨new ++ new', by rw [hcode', hcode, List.append_assoc], fun i hi => ?_⟩
  exact (List.mem_append.1 hi).elim (hnew i) (hnew' i)

/-- A step without a call may stand in front. -/
theorem Uncalling.callsOn {m : Lower α} {a : α} (hm : Uncalling m)
    (hrun : m ctx s = .ok a s₁) (h : s₁.CallsOn receiver t s') : s.CallsOn receiver t s' := by
  obtain ⟨new, hcode, hnew⟩ := hm hrun
  obtain ⟨new', op, hcode', hop, hnew'⟩ := h
  refine ⟨new ++ new', op, by simp [hcode', hcode], hop, fun i hi => ?_⟩
  exact (List.mem_append.1 hi).elim (hnew i) (hnew' i)

theorem pure_uncalling (a : α) : Uncalling (pure a : Lower α) := by
  intro ctx s a' s' h
  cases h
  exact ⟨[], by simp, by simp⟩

theorem define_uncalling {storage : Storage} (hop : op.isCall = false)
    (hplain : ∀ l r, op ≠ .addToNumber l r) : Uncalling (define storage op) :=
  fun _ _ _ _ h => ⟨[_], define_plainCode h hplain, by simpa [Instr.calls] using hop⟩

theorem loadCarrier_uncalling (carrier : Carrier) : Uncalling (loadCarrier carrier) := by
  unfold loadCarrier
  split
  · rename_i slot _
    intro ctx s t s' h
    cases h
    refine ⟨[.define ⟨s.temps.size⟩ (.loadSlot slot)], by simp [plainCode, Instr.unfused], ?_⟩
    simp [Instr.calls, Operation.isCall]
  · exact define_uncalling rfl (by simp)

theorem mapM_uncalling {f : α → Lower β} (h : ∀ a, Uncalling (f a)) (l : List α) :
    Uncalling (l.mapM f) := by
  induction l with
  | nil => exact pure_uncalling _
  | cons a l ih =>
    rw [List.mapM_cons]
    exact (h a).bind fun _ => ih.bind fun _ => pure_uncalling _

theorem currentScopes_uncalling : Uncalling currentScopes := by
  intro ctx s t s' h
  exact (mapM_uncalling (fun _ => loadCarrier_uncalling _) _).bind
    (fun _ => define_uncalling rfl (by simp)) (read_ok h)

theorem packed_uncalling : Uncalling (packed args) := by
  cases args with
  | fixed values => exact define_uncalling rfl (by simp)
  | collected array => exact pure_uncalling array

theorem callMethodValue_callsOn {function : Temp}
    (h : callMethodValue function receiver args ctx s = .ok t s') : s.CallsOn receiver t s' := by
  obtain ⟨scopes, s₁, hscopes, hrest⟩ := bind_ok h
  obtain ⟨array, s₂, harray, hcall⟩ := bind_ok hrest
  have hcalls : s₂.CallsOn receiver t s' := .of_define (define_plainCode hcall (by simp)) rfl
  exact currentScopes_uncalling.callsOn hscopes (packed_uncalling.callsOn harray hcalls)

theorem callsOn_of_push (hop : op.receiver? = some receiver)
    (h : s'.code = s.code.push (.define t op)) : s.CallsOn receiver t s' := by
  refine .of_define ?_ hop
  simp only [plainCode, h, Array.toList_push, List.map_append, List.map_cons, List.map_nil]
  unfold Instr.unfused
  split <;> simp_all [Operation.receiver?]

theorem emitCall_callsOn {fixed : List Temp → Operation} {withArray : Temp → Operation}
    (hfixed : ∀ ts, (fixed ts).receiver? = some receiver)
    (harray : ∀ t, (withArray t).receiver? = some receiver)
    (h : emitCall args fixed withArray ctx s = .ok t s') : s.CallsOn receiver t s' := by
  obtain ⟨result, s₁, hfresh, hrest⟩ := bind_ok h
  cases hfresh
  replace hrest := read_ok hrest
  cases args with
  | collected array =>
    cases hrest
    exact callsOn_of_push (harray array) rfl
  | fixed values =>
    dsimp only at hrest
    split at hrest
    · cases hrest
      exact callsOn_of_push (hfixed values) rfl
    · obtain ⟨array, s₂, hpacked, hemit⟩ := bind_ok hrest
      have hcalls : s₂.CallsOn receiver t s' := by
        cases hemit
        exact callsOn_of_push (harray array) rfl
      have hall := packed_uncalling.callsOn hpacked hcalls
      exact hall

theorem callDynamicMember_callsOn (h : callDynamicMember receiver name args ctx s = .ok t s') :
    ∃ r s₁, s.Converts .toObject receiver r s₁ ∧ s₁.CallsOn r t s' := by
  obtain ⟨r, s₁, hr, hcall⟩ := bind_ok h
  exact ⟨r, s₁, asObject_converts hr, emitCall_callsOn (fun _ => rfl) (fun _ => rfl) hcall⟩

theorem boundMethod?_ok {arity : Nat} {found : Option (String × ClassInfo × MethodInfo)}
    (h : boundMethod? receiver name arity ctx s = .ok found s') : s' = s := by
  replace h := read_ok h
  obtain ⟨storage, _, hstorage, hrest⟩ := bind_ok h
  cases hstorage
  generalize Storage.className? _ = className? at hrest
  cases className? with
  | none =>
    cases hrest
    rfl
  | some className =>
    dsimp only at hrest
    split at hrest <;> cases hrest <;> rfl

theorem callMember_callsOn (h : callMember receiver name args ctx s = .ok t s') :
    ∃ r s₁, s.Converts .toObject receiver r s₁ ∧ s₁.CallsOn r t s' := by
  cases args with
  | collected array => exact callDynamicMember_callsOn h
  | fixed values =>
    obtain ⟨found, s₁, hfound, hrest⟩ := bind_ok h
    obtain rfl := boundMethod?_ok hfound
    cases found with
    | none => exact callDynamicMember_callsOn hrest
    | some found =>
      exact ⟨receiver, s₁, .refl _ _ _, .of_define (define_plainCode hrest (by simp)) rfl⟩

/-- A call of a member that is accessed by name is made on the object, which is evaluated once, in
front of the arguments. The exceptions are static methods and members of globals, which are bound by
name. -/
theorem lowerExpr_callsOnReceiver {ctx : Context} {s s' : Session} {base : Expr} {name : String}
    {args : List Argument} {optional : Bool} {t : Temp}
    (h : lowerExpr (.call (.member base name false) args optional) ctx s = .ok t s')
    (hbound : optional = true ∨ args.any Argument.isSpread = true ∨
      staticMember? ctx.registry base name args.length = none) :
    ∃ object s₁, lowerExpr base ctx s = .ok object s₁ ∧
      (optional = false → ∃ values s₂ receiver s₃,
        arguments args true (lowerArgs · args) ctx s₁ = .ok values s₂ ∧
        s₂.Converts .toObject object receiver s₃ ∧ s₃.CallsOn receiver t s') ∧
      (optional = true → ∃ (receiver method result : Temp) (values : Arguments)
          (s₂ s₃ s₄ s₅ s₆ : Session), s₁.Converts .toObject object receiver s₂ ∧
        s₃.plainCode = s₂.plainCode ++ [.define method (.getProperty receiver name)] ∧
        s₃.Guards method s₄ result s₆ t s' ∧
        arguments args true (lowerArgs · args) ctx s₄ = .ok values s₅ ∧
        s₅.CallsOn receiver result s₆) := by
  cases optional with
  | true =>
    rw [lowerExpr] at h
    obtain ⟨object, s₁, hobject, hrest⟩ := bind_ok h
    obtain ⟨receiver, s₂, hreceiver, hrest⟩ := bind_ok hrest
    obtain ⟨method, s₃, hmethod, hrest⟩ := bind_ok hrest
    obtain ⟨s₄, result, s₆, haccess, hguards⟩ := optionally_guards hrest
    obtain ⟨values, s₅, hvalues, hcall⟩ := bind_ok haccess
    exact ⟨object, s₁, hobject, by simp, fun _ =>
      ⟨receiver, method, result, values, s₂, s₃, s₄, s₅, s₆,
      asObject_converts hreceiver, define_plainCode hmethod (by simp), hguards, hvalues,
      callMethodValue_callsOn hcall⟩⟩
  | false =>
    rw [lowerExpr] at h
    have hnone : (if args.any Argument.isSpread then none
        else staticMember? ctx.registry base name args.length) = none := by
      split
      · rfl
      · simpa [*] using hbound
    replace h := read_ok h
    dsimp only at h
    rw [hnone] at h
    obtain ⟨object, s₁, hobject, hrest⟩ := bind_ok h
    obtain ⟨values, s₂, hvalues, hcall⟩ := bind_ok hrest
    obtain ⟨receiver, s₃, hreceiver, hcalls⟩ := callMember_callsOn hcall
    exact ⟨object, s₁, hobject, fun _ => ⟨values, s₂, receiver, s₃, hvalues, hreceiver, hcalls⟩, by simp⟩

/-- `this.m()` at the start of a function. -/
theorem lowerExpr_callsOnReceiver_this : ∃ s receiver result s',
    Session.CallsOn s receiver result s' := by
  have h : lowerExpr (.call (.member .this "m" false) [] false)
      ⟨{ name := "f", kind := .function, scope := ⟨0⟩ }, .ofModule "m", {}, 3, "m", [], false, [], []⟩ {} =
        .ok _ _ := rfl
  obtain ⟨_, _, -, hplain, -⟩ := lowerExpr_callsOnReceiver h (.inr (.inr rfl))
  obtain ⟨_, _, receiver, s, -, -, hcalls⟩ := hplain rfl
  exact ⟨s, receiver, _, _, hcalls⟩

end Lower

/-- `return this["m"]();` -/
def callItem : Function where
  name := "f"
  kind := .function
  scope := ScopeTree.global
  body := [.ret (some (.call (.index .this (.string "m") false) [] false))]

/-- The function is read from an item and then called without a receiver. -/
theorem Function.lower_losesReceiver :
    (callItem.lower (.ofModule "m") {} {}).result.toOption.map (·.code.filter Instr.calls) =
      some [.define ⟨4⟩ (.callValue ⟨2⟩ ⟨3⟩ [])] := by
  decide +kernel

end ScriptLowering
