import ScriptLowering.Proofs.Course.Call
import ScriptLowering.Proofs.RoutedTry

/-!
# The course of a lowering

The recursion over the source only takes steps of `Session.Step`: an expression gives a loose temp
of some storage, a pattern takes one up, and a statement leaves nothing behind.
-/

namespace ScriptLowering.Lower

attribute [local simp] Operation.demands Effect.demands Instr.demands Coercion.demand objects

variable {ctx : Context} {V : List Temp} {Γ : List Fact}
variable {f : Function} {body : Lower Unit} {scope : Option ScopeId} {options : Options}
  {registry : Registry} {tree : ScopeTree} {s : Session} {source value : Temp} {u : Unit}

/-! ### Destructuring -/

theorem storeBinding_types {mode : BindMode} {id : BindingId} (h : value ∈ V)
    (hany : .has value .any ∈ Γ) : (storeBinding mode id value).Types ctx V Γ .nothing := by
  cases mode with
  | init => exact initBinding_types (by simp [*]) (by simp [*])
  | assign => exact assignBinding_types (by simp [*]) (by simp [*])

theorem openPattern_types {pattern : Pattern} (h : .has value .any ∈ Γ) :
    (openPattern pattern value).Types ctx V Γ (.held .object) := by
  refine read_types ?_
  split
  · exact decline_types _
  refine (asObject_types (by simp [*])).settle fun source => .label fun valid => ?_
  refine (define_types .bool (by simp) rfl rfl).settle fun nullish => ?_
  refine .branchIf (by simp) <| (throwTypeError_types _).seq fun _ => ?_
  exact .place <| pure_types (by simp) (by simp)

theorem keyConstants_types (keys : List String) : (keyConstants keys).Types ctx V Γ .objects := by
  have hkey : ∀ key (Γ : List Fact), (string key).Types ctx [] Γ (.held .object) := fun key Γ =>
    (define_types .object (by simp) rfl rfl).held
  refine (mapM_types keys fun key _ Γ => hkey key Γ).weaken (fun _ => List.nil_subset _)
    fun ts d hd => ?_
  obtain ⟨t, ht, rfl⟩ := List.mem_map.1 hd
  exact List.mem_flatMap.2 ⟨t, ht, by simp⟩

theorem objectRest_types {keys : List String} (h : .has source .object ∈ Γ) :
    (objectRest source keys).Types ctx V Γ (.fresh .any) := by
  refine (keyConstants_types keys).settle fun constants => ?_
  refine .settle (define_types .object (mem_of_objects (List.subset_append_left _ _)) rfl rfl)
    fun excluded => ?_
  exact define_types .any (by simp [*]) rfl rfl

theorem patternItem_types {position : Nat} (h : .has source .object ∈ Γ) :
    (patternItem source position).Types ctx V Γ (.fresh .any) := by
  refine (number_types _).settle fun _ => (asObject_types (by simp)).settle fun key => ?_
  exact define_types .any (by simp [*]) rfl rfl

theorem arrayRest_types {start : Nat} (h : .has source .object ∈ Γ) :
    (arrayRest source start).Types ctx V Γ (.fresh .any) := by
  refine (number_types _).settle fun _ => (asObject_types (by simp)).settle fun key => ?_
  exact define_types .any (by simp [*]) rfl rfl

/-! ### Expressions and patterns -/

theorem objects_snoc {ts : List Temp} {t : Temp} {Γ' : List Fact}
    (h : Guarantee.objects.facts ts ⊆ Γ)
    (hΓ : Γ ⊆ Γ') (ht : .has t .object ∈ Γ') : Guarantee.objects.facts (ts ++ [t]) ⊆ Γ' := by
  intro d hd
  obtain ⟨u, hu, rfl⟩ := List.mem_map.1 hd
  rcases List.mem_append.1 hu with hu | hu
  · exact hΓ (h (List.mem_map_of_mem hu))
  · obtain rfl := List.mem_singleton.1 hu
    exact ht

mutual

theorem lowerExpr_types (e : Expr) : (lowerExpr e).GivesValue := by
  intro ctx
  cases e with
  | number value => exact (number_types value).any
  | string value => exact (string_types value).any
  | bool value => exact (bool_types value).any
  | null => exact null_types.any
  | undefined => exact undefined_types.any
  | ident binding => exact loadBinding_types binding
  | intrinsic name => exact define_types .any (by simp [Operation.demands]) rfl rfl
  | classRef name => exact define_types .any (by simp [Operation.demands]) rfl rfl
  | this => exact thisValue_types
  | function ref => exact closure_types ref
  | array elements =>
    exact (forbidSuspend_types _).seq fun _ => lowerElements_types [] elements ctx _ (by simp)
  | object members =>
    exact (forbidSuspend_types _).seq fun _ => lowerMembers_types [] members ctx _ (by simp)
  | template texts holes =>
    refine (forbidSuspend_types _).seq fun _ =>
      (lowerTemplate_types none holes texts ctx _ _ (by simp) (by simp)).bind fun joined => ?_
    cases joined with
    | some t => exact pure_types (by simp) (by simp)
    | none => exact (string_types "").any
  | unary op operand => exact unary_types (lowerExpr_types operand)
  | binary op left right =>
    exact (forbidSuspend_types _).seq fun _ =>
      binary_types (lowerExpr_types left) (lowerExpr_types right)
  | logical op left right => exact logical_types (lowerExpr_types left) (lowerExpr_types right)
  | conditional test consequent alternate =>
    exact conditional_types (lowerExpr_types test) (lowerExpr_types consequent)
      (lowerExpr_types alternate)
  | assign pattern value =>
    cases pattern with
    | binding binding =>
      exact (lowerExpr_types value).types.bind fun _ =>
        (assignBinding_types (by simp) (by simp)).seq fun _ => pure_types (by simp) (by simp)
    | target expr =>
      have hassign : (do
          let target ← resolveTarget expr
          let value ← lowerExpr value
          writeTarget target value
          return value : Lower Temp).Types ctx [] [] (.fresh .any) := by
        refine (resolveTarget_types expr ctx).settle fun target => ?_
        refine (lowerExpr_types value).types.bind fun value => ?_
        refine (writeTarget_types (fun d hd => ?_) (by simp) (by simp)).seq fun _ => ?_
        · exact List.mem_append_right _ (List.mem_append_left _ hd)
        · exact pure_types (by simp) (by simp)
      show (if !expr.isIdent then _ else _ : Lower Temp).Types ctx [] [] _
      split
      · exact (forbidSuspend_types _).seq fun _ => hassign
      · exact hassign
    | _ =>
      exact (lowerExpr_types value).types.bind fun t =>
        ((bindPattern_types .assign _).types (by simp)
        (by simp)).seq fun _ => pure_types (by simp) (by simp)
  | compoundAssign op target value =>
    refine (forbidSuspend_types _).seq fun _ =>
      (resolveTarget_types target ctx).settle fun target => ?_
    refine (readTarget_types (List.subset_append_left _ _)).bind fun current => ?_
    refine (lowerExpr_types value).types.bind fun operand => ?_
    refine (applyBinary_types (by simp) (by simp) (by simp) (by simp)).bind fun result => ?_
    refine (writeTarget_types (fun d hd => ?_) (by simp) (by simp)).seq fun _ => ?_
    · simp only [List.mem_append]
      exact .inr (.inr (.inr (.inl hd)))
    · exact pure_types (by simp) (by simp)
  | update op inFront target =>
    exact (resolveTarget_types target ctx).settle fun _ =>
      update_types (List.subset_append_left _ _)
  | member base name optional =>
    refine (lowerExpr_types base).types.settle fun object => ?_
    split
    · exact optionally_types (by simp) (getProperty_types (by simp))
    · exact getProperty_types (by simp)
  | index base key optional =>
    refine (forbidSuspend_types _).seq fun _ => (lowerExpr_types base).types.settle fun object => ?_
    have haccess : (do getItem object (← lowerExpr key) : Lower Temp).Types ctx []
        ((Guarantee.fresh .any).facts object ++ []) (.fresh .any) :=
      (lowerExpr_types key).types.settle fun _ => getItem_types (by simp) (by simp)
    dsimp only
    split
    · exact optionally_types (by simp) haccess
    · exact haccess
  | call callee args optional =>
    have hargs : GivesArguments fun array => lowerArgs array args := fun ctx array =>
      lowerArgs_types array args ctx _ (List.Subset.refl _)
    have hcallee := lowerExpr_types callee
    cases optional with
    | true =>
      cases callee with
      | member base name optional =>
        cases optional with
        | true => exact optionalCall_types hcallee fun _ => arguments_types hargs
        | false => exact optionalMethodCall_types (lowerExpr_types base) fun _ =>
          arguments_types hargs
      | _ => exact optionalCall_types hcallee fun _ => arguments_types hargs
    | false =>
      cases callee with
      | member base name optional =>
        cases optional with
        | true => exact plainCall_types hcallee hargs
        | false => exact memberCall_types (lowerExpr_types base) hargs
      | _ => exact plainCall_types hcallee hargs
  | superCall args =>
    exact superCall_types fun ctx array => lowerArgs_types array args ctx _ (List.Subset.refl _)
  | newClass className args =>
    exact newClass_types fun ctx array => lowerArgs_types array args ctx _ (List.Subset.refl _)
  | newIntrinsic name args =>
    exact newIntrinsic_types fun ctx array => lowerArgs_types array args ctx _ (List.Subset.refl _)
  | newValue callee args =>
    exact newValue_types (lowerExpr_types callee) fun _ =>
      arguments_types fun ctx array => lowerArgs_types array args ctx _ (List.Subset.refl _)
  | sequence exprs => exact lowerSequence_types none exprs ctx _ _ (by simp) (by simp)
  | await operand => exact await_types (lowerExpr_types operand)
  | yield operand delegates =>
    cases operand with
    | none => exact yieldExpr_types fun _ => undefined_types.any
    | some operand => exact yieldExpr_types (lowerExpr_types operand)

theorem resolveTarget_types (e : Expr) (ctx : Context) :
    (resolveTarget e).Types ctx [] [] .target := by
  cases e with
  | ident binding => exact pure_types (by simp) (by simp)
  | member base name optional =>
    cases optional with
    | true => exact decline_types _
    | false => exact (lowerExpr_types base).types.settle fun _ => pure_types (by simp) (by simp)
  | index base key optional =>
    cases optional with
    | true => exact decline_types _
    | false =>
      exact (forbidSuspend_types _).seq fun _ => (lowerExpr_types base).types.settle fun _ =>
        (lowerExpr_types key).types.settle fun _ => pure_types (by simp) (by simp)
  | _ => exact decline_types _

theorem lowerSequence_types (last : Option Temp) (exprs : List Expr) (ctx : Context) (V : List Temp)
    (Γ : List Fact) (hloose : last.toList ⊆ V) (hany : ∀ t ∈ last, .has t .any ∈ Γ) :
    (lowerSequence last exprs).Types ctx V Γ (.fresh .any) := by
  cases exprs with
  | nil =>
    cases last with
    | none => exact undefined_types.any
    | some t => exact pure_types hloose (by simpa using hany t rfl)
  | cons expr rest =>
    have hrest : (lowerExpr expr >>= fun value => lowerSequence (some value) rest).Types ctx V Γ
        (.fresh .any) :=
      (lowerExpr_types expr).types.bind fun t =>
        lowerSequence_types (some t) rest ctx _ _ (by simp) (by simp)
    cases last <;> exact hrest

theorem lowerTemplate_types (before : Option Temp) (holes : List Expr) (texts : List String)
    (ctx : Context) (V : List Temp) (Γ : List Fact) (h : Guarantee.text.facts before ⊆ Γ)
    (hloose : before.toList ⊆ V) : (lowerTemplate before holes texts).Types ctx V Γ .text := by
  cases holes with
  | nil => exact concatConstants_types h hloose
  | cons hole holes =>
    cases texts with
    | nil => exact pure_types hloose h
    | cons text texts =>
      refine (concatConstant_types h hloose).bind fun before => ?_
      refine (lowerExpr_types hole).types.bind fun _ =>
        (asText_loose (by simp) (by simp)).bind fun part => ?_
      refine (concatText_types ?_ (by simp) (by simp) (by simp)).bind fun joined => ?_
      · cases before <;> simp
      · exact lowerTemplate_types (some joined) holes texts ctx _ _ (by simp) (by simp)

theorem lowerElements_types (leading : List Temp) (elements : List Element) (ctx : Context)
    (Γ : List Fact) (h : Guarantee.objects.facts leading ⊆ Γ) :
    (lowerElements leading elements).Types ctx [] Γ (.fresh .any) := by
  cases elements with
  | nil => exact define_objects_types rfl h rfl rfl
  | cons element rest =>
    cases element with
    | item value =>
      refine (lowerExpr_types value).object fun t => ?_
      exact lowerElements_types (leading ++ [t]) rest ctx _
        (objects_snoc h (fun d hd => by simp [hd]) (by simp))
    | hole =>
      refine undefined_types.settle fun _ => (asObject_types (by simp)).settle fun t => ?_
      exact lowerElements_types (leading ++ [t]) rest ctx _
        (objects_snoc h (fun d hd => by simp [hd]) (by simp))
    | spread value =>
      refine .settle_return (define_types .array (mem_of_objects h) rfl rfl) fun array => ?_
      refine (lowerExpr_types value).object fun t => ?_
      refine (perform_types (by simp) rfl).seq fun _ => ?_
      exact (appendElements_types array rest ctx _ (by simp)).seq fun _ => return_types (by simp)

theorem appendElements_types (array : Temp) (elements : List Element) (ctx : Context)
    (Γ : List Fact)
    (h : .has array .array ∈ Γ) : (appendElements array elements).Types ctx [] Γ .nothing := by
  cases elements with
  | nil => exact done_types
  | cons element rest =>
    cases element with
    | item value | spread value =>
      refine (lowerExpr_types value).object fun t => ?_
      refine (perform_types (by simp [*]) rfl).seq fun _ => ?_
      exact appendElements_types array rest ctx _ (by simp [*])
    | hole =>
      refine undefined_types.settle fun t => (perform_types (by simp [*]) rfl).seq fun _ => ?_
      exact appendElements_types array rest ctx _ (by simp [*])

theorem lowerMembers_types (leading : List (String × Temp)) (members : List Member) (ctx : Context)
    (Γ : List Fact) (h : Guarantee.objects.facts (leading.map (·.2)) ⊆ Γ) :
    (lowerMembers leading members).Types ctx [] Γ (.fresh .any) := by
  cases members with
  | nil => exact define_objects_types rfl h rfl rfl
  | cons member rest =>
    cases member with
    | named name value =>
      refine (lowerExpr_types value).object fun t => ?_
      refine lowerMembers_types (leading ++ [(name, t)]) rest ctx _ ?_
      rw [List.map_append]
      exact objects_snoc h (fun d hd => by simp [hd]) (by simp)
    | computed key value =>
      refine .settle_return (define_types .object (mem_of_objects h) rfl rfl) fun object => ?_
      refine (lowerExpr_types key).object fun key => ?_
      refine (lowerExpr_types value).object fun t => ?_
      refine (perform_types (by simp) rfl).seq fun _ => ?_
      exact (addMembers_types object rest ctx _ (by simp)).seq fun _ => return_types (by simp)
    | spread value =>
      refine .settle_return (define_types .object (mem_of_objects h) rfl rfl) fun object => ?_
      refine (lowerExpr_types value).object fun t => ?_
      refine (define_types .any (by simp) rfl rfl).settle fun _ => ?_
      exact (addMembers_types object rest ctx _ (by simp)).seq fun _ => return_types (by simp)

theorem addMembers_types (object : Temp) (members : List Member) (ctx : Context) (Γ : List Fact)
    (h : .has object .object ∈ Γ) : (addMembers object members).Types ctx [] Γ .nothing := by
  cases members with
  | nil => exact done_types
  | cons member rest =>
    cases member with
    | named name value =>
      refine (lowerExpr_types value).object fun t => ?_
      refine (perform_types (by simp [*]) rfl).seq fun _ => ?_
      exact addMembers_types object rest ctx _ (by simp [*])
    | computed key value =>
      refine (lowerExpr_types key).object fun key => ?_
      refine (lowerExpr_types value).object fun t => ?_
      refine (perform_types (by simp [*]) rfl).seq fun _ => ?_
      exact addMembers_types object rest ctx _ (by simp [*])
    | spread value =>
      refine (lowerExpr_types value).object fun t => ?_
      refine (define_types .any (by simp [*]) rfl rfl).settle fun _ => ?_
      exact addMembers_types object rest ctx _ (by simp [*])

theorem lowerArgs_types (array : Option Temp) (args : List Argument) (ctx : Context)
    (Γ : List Fact) (h : array.toList.map (fun t => .has t .array) ⊆ Γ) :
    (lowerArgs array args).Types ctx [] Γ .objects := by
  cases args with
  | nil => exact pure_types (by simp) (by simp)
  | cons arg rest =>
    cases arg with
    | plain value | spread value =>
      refine (lowerExpr_types value).object fun t => ?_
      have hrest : ∀ Γ', Γ ⊆ Γ' → .has t .object ∈ Γ' →
          (do return t :: (← lowerArgs array rest) : Lower (List Temp)).Types
            ctx [] Γ' .objects := by
        intro Γ' hΓ ht
        refine (lowerArgs_types array rest ctx Γ' (List.Subset.trans h hΓ)).settle fun ts => ?_
        exact pure_types (by simp) (by simp [ht])
      cases array with
      | none => exact hrest _ (fun d hd => by simp [hd]) (by simp)
      | some array =>
        have harray : .has array .array ∈ Γ := h (by simp)
        refine (perform_types (by simp [*]) rfl).seq fun _ => ?_
        exact hrest _ (fun d hd => by simp [hd]) (by simp)

theorem bindPattern_types (mode : BindMode) (pattern : Pattern) :
    TakesValue (bindPattern mode pattern) := by
  intro ctx value
  cases pattern with
  | binding binding => exact storeBinding_types (by simp) (by simp)
  | target expr =>
    refine (resolveTarget_types expr ctx).anywhere.bind fun target => ?_
    refine writeTarget_types ?_ (by simp) (by simp)
    cases target <;> simp
  | withDefault inner default =>
    refine (forbidSuspend_types _).seq fun _ => ?_
    refine (valueOrDefault_types (by simp) (lowerExpr_types default)).bind fun value => ?_
    exact (bindPattern_types mode inner).types (by simp) (by simp)
  | object properties rest =>
    rw [bindPattern]
    refine (openPattern_types (by simp)).settle fun source => ?_
    refine .seq (bindProperties_types mode source properties ctx _ (by simp)) fun _ => ?_
    cases rest with
    | none => exact done_types
    | some rest =>
      exact (objectRest_types (by simp)).bind fun t =>
        (bindPattern_types mode rest).types (by simp) (by simp)
  | array elements rest =>
    rw [bindPattern]
    refine (openPattern_types (by simp)).settle fun source => ?_
    refine .seq (bindElements_types mode source 0 elements ctx _ (by simp)) fun _ => ?_
    cases rest with
    | none => exact done_types
    | some rest =>
      exact (arrayRest_types (by simp)).bind fun t =>
        (bindPattern_types mode rest).types (by simp) (by simp)

theorem bindProperties_types (mode : BindMode) (source : Temp)
    (properties : List (String × Pattern))
    (ctx : Context) (Γ : List Fact) (h : .has source .object ∈ Γ) :
    (bindProperties mode source properties).Types ctx [] Γ .nothing := by
  cases properties with
  | nil => exact done_types
  | cons property rest =>
    obtain ⟨key, inner⟩ := property
    refine (define_types .any (by simp [*]) rfl rfl).bind fun value => ?_
    refine ((bindPattern_types mode inner).types (by simp) (by simp)).seq fun _ => ?_
    exact (bindProperties_types mode source rest ctx Γ (by simp [*])).mono (List.nil_subset _)
      (List.subset_append_right _ _)

theorem bindElements_types (mode : BindMode) (source : Temp) (position : Nat)
    (elements : List (Option Pattern)) (ctx : Context) (Γ : List Fact)
    (h : .has source .object ∈ Γ) :
    (bindElements mode source position elements).Types ctx [] Γ .nothing := by
  cases elements with
  | nil => exact done_types
  | cons element rest =>
    cases element with
    | none => exact bindElements_types mode source (position + 1) rest ctx Γ (by simp [*])
    | some inner =>
      refine (patternItem_types (by simp [*])).bind fun value => ?_
      refine ((bindPattern_types mode inner).types (by simp) (by simp)).seq fun _ => ?_
      exact (bindElements_types mode source (position + 1) rest ctx Γ (by simp [*])).mono
        (List.nil_subset _) (List.subset_append_right _ _)

end

/-! ### Loops -/

section Loops

variable {name : Option String} {scope : Option ScopeId} {test object iterable : Lower Temp}
  {body init update : Lower Unit} {bind : Temp → Lower Unit}
variable {iterator : Carrier}

/-- The body of a loop. -/
theorem loopBody_types {exit next : Label} (h : body.Proceeds) :
    (within (.loop exit next name) body).Types ctx V Γ .nothing :=
  within_types (by simp) h.types

theorem whileLoop_types (htest : test.GivesValue) (hbody : body.Proceeds) :
    (whileLoop name test body).Types ctx V Γ .nothing := by
  refine .label fun head => .label fun finish => ?_
  refine .place <| (condition_types htest).settle fun holds => ?_
  refine .branchIf (by simp) <| (loopBody_types hbody).seq fun _ => ?_
  exact .branch <| place_types finish

theorem doWhileLoop_types (hbody : body.Proceeds) (htest : test.GivesValue) :
    (doWhileLoop name body test).Types ctx V Γ .nothing := by
  refine .label fun top => .label fun next => ?_
  refine .label fun finish => .place ?_
  refine (loopBody_types hbody).seq fun _ => .place ?_
  refine (condition_types htest).settle fun holds => .branchIf (by simp) ?_
  exact place_types finish

theorem forLoop_types {test : Option (Lower Temp)} (hinit : init.Proceeds)
    (htest : ∀ t ∈ test, GivesValue t) (hupdate : update.Proceeds) (hbody : body.Proceeds) :
    (forLoop name scope init test update body).Types ctx V Γ .nothing := by
  refine .label fun head => .label fun next => ?_
  refine .label fun finish => inScope_types fun ctx => ?_
  have hrest : ∀ V Γ, (do
      within (.loop finish next name) body
      place next
      renewBlock scope
      update
      branch head
      place finish : Lower Unit).Types ctx V Γ .nothing := fun V Γ =>
    (loopBody_types hbody).seq fun _ => .place <| (renewBlock_types scope).seq
      fun _ => hupdate.types.seq fun _ => .branch <| place_types finish
  refine hinit.types.seq fun _ => .place ?_
  cases test with
  | none => exact hrest _ _
  | some test =>
    refine (condition_types (htest test rfl)).settle fun holds => ?_
    exact .branchIf (by simp) <| hrest _ _

theorem increment_types {carrier : Carrier} (h : .carrier carrier .double ∈ Γ) :
    (increment carrier).Types ctx V Γ .nothing := by
  refine (loadCarrier_types .double .double (by simp [*]) rfl).settle fun current =>
    (number_types _).settle fun one => ?_
  refine (define_types .double (by simp) rfl rfl).settle fun next => ?_
  exact storeCarrier_types .double (by simp [*]) (by simp) (by simp)

theorem forInLoop_types (hbind : TakesValue bind) (hobject : object.GivesValue)
    (hbody : body.Proceeds) : (forInLoop name scope bind object body).Types ctx V Γ .nothing := by
  refine .label fun head => .label fun next => ?_
  refine .label fun finish => hobject.types.settle fun _ => ?_
  refine (asObject_types (by simp)).settle fun object => ?_
  refine (define_types .object (by simp) rfl rfl).settle fun keys => ?_
  refine (define_types .double (by simp) rfl rfl).settle fun length => ?_
  refine (durableCarrier_types (by decide) rfl).settle fun keysCarrier => ?_
  refine (durableCarrier_types (by decide) rfl).settle fun lengthCarrier => ?_
  refine (durableCarrier_types (by decide) rfl).settle fun indexCarrier => ?_
  refine (storeCarrier_types .array (by simp) (by simp) (.inl rfl)).seq fun _ => ?_
  refine (storeCarrier_types .double (by simp) (by simp) (by simp)).seq fun _ => ?_
  refine (number_types _).settle fun zero => ?_
  refine (storeCarrier_types .double (by simp) (by simp) (by simp)).seq fun _ => ?_
  refine .place <| (loadCarrier_types .double .double (by simp) rfl).settle fun index => ?_
  refine (loadCarrier_types .double .double (by simp) rfl).settle fun bound => ?_
  refine (define_types .bool (by simp) rfl rfl).settle fun more => ?_
  refine .branchIf (by simp) ?_
  refine (loadCarrier_types .array .array (by simp) rfl).settle fun array => ?_
  refine (define_types .any (by simp) rfl rfl).bind fun key => ?_
  refine (inScope_types fun ctx => ?_).seq fun _ => ?_
  · exact (hbind.types (by simp) (by simp)).seq fun _ => loopBody_types hbody
  · refine .place <| (increment_types (by simp)).seq fun _ => ?_
    exact .branch <| place_types finish

theorem getIterator_types (h : iterable.GivesValue) :
    (getIterator iterable).Types ctx V Γ (.fresh .object) := by
  refine h.object fun iterable => ?_
  exact define_types .object (by simp) rfl rfl

theorem iteratorStep_types {exhausted : Label} (h : .carrier iterator (.reference .iterator) ∈ Γ) :
    (iteratorStep iterator exhausted).Types ctx V Γ (.fresh .any) := by
  refine (loadCarrier_types _ .object h rfl).settle fun iterator => ?_
  refine (define_types .object (by simp [Operation.demands, objects]) rfl rfl).settle fun step => ?_
  refine (define_types .bool (by simp [Operation.demands, objects]) rfl rfl).settle fun done => ?_
  refine .label fun hasValue => .branchIf (by simp) ?_
  refine .branch <| .place ?_
  exact define_types .any (by simp [Operation.demands, objects]) rfl rfl

theorem closeIterator_types (h : .carrier iterator (.reference .iterator) ∈ Γ) :
    (closeIterator iterator).Types ctx V Γ .nothing := by
  refine (loadCarrier_types _ .object h rfl).settle fun iterator => ?_
  exact (define_types .object (by simp [Operation.demands, objects]) rfl rfl).settle fun _ =>
    done_types

theorem forOfLoop_types (hbind : TakesValue bind) (hiterable : iterable.GivesValue)
    (hbody : body.Proceeds) : (forOfLoop name scope bind iterable body).Types ctx V Γ .nothing := by
  refine .label fun tryStart => .label fun head => ?_
  refine .label fun exhausted => .label fun handlerStart => ?_
  refine .label fun skipClose => .label fun handlerEnd => ?_
  refine .label fun finish => (getIterator_types hiterable).settle fun iterator => ?_
  refine (joinCarrier_types rfl).settle fun iteratorCarrier => ?_
  refine (storeCarrier_types (.reference .iterator) (by simp) (by simp) (.inl rfl)).seq fun _ => ?_
  refine (joinCarrier_types rfl).settle fun doneCarrier => (bool_types false).settle fun _ => ?_
  refine (storeCarrier_types .bool (by simp) (by simp) (.inl rfl)).seq fun _ => ?_
  refine (within_types (by simp) (within_types (by simp) ?_)).seq fun _ => ?_
  · refine .place <| .place ?_
    refine (bool_types true).settle fun _ => ?_
    refine (storeCarrier_types .bool (by simp) (by simp) (.inl rfl)).seq fun _ => ?_
    refine (iteratorStep_types (by simp)).bind fun value => (bool_types false).bind fun _ => ?_
    refine (storeCarrier_types .bool (by simp) (by simp) (.inl rfl)).seq fun _ => ?_
    refine (inScope_types fun ctx => ?_).seq fun _ => ?_
    · exact (hbind.types (by simp) (by simp)).seq fun _ => hbody.types
    · refine .branch <| .place ?_
      exact emit_types (by simp) rfl rfl
  refine .place <| (within_types (by simp) ?_).seq fun _ => ?_
  · refine (loadCarrier_types .bool .bool (by simp) rfl).settle fun done => ?_
    refine .branchIf (by simp) <| (closeIterator_types (by simp)).seq fun _ => ?_
    exact .place <| emit_types (by simp) rfl rfl
  · exact .place <| (addRegion_types _).seq fun _ => place_types finish

theorem suspendingForOfLoop_types (hbind : TakesValue bind) (hiterable : iterable.GivesValue)
    (hbody : body.Proceeds) :
    (suspendingForOfLoop name scope bind iterable body).Types ctx V Γ .nothing := by
  refine .label fun head => .label fun close => ?_
  refine .label fun finish => (getIterator_types hiterable).settle fun iterator => ?_
  refine (durableCarrier_types (by decide) rfl).settle fun iteratorCarrier => ?_
  refine (storeCarrier_types (.reference .iterator) (by simp) (by simp) (.inl rfl)).seq fun _ => ?_
  refine .place <| (iteratorStep_types (by simp)).bind fun value => ?_
  refine (inScope_types fun ctx => ?_).seq fun _ => ?_
  · exact (hbind.types (by simp) (by simp)).seq fun _ => loopBody_types hbody
  · refine .branch <| .place ?_
    exact (closeIterator_types (by simp)).seq fun _ => place_types finish

end Loops

/-! ### Try statements -/

section Try

variable {block finalizer body : Lower Unit} {handler : Temp → Lower Unit}
variable {code : Lower Unit} {n : Nat}

theorem catchBody_types {scope : Option ScopeId} {param : Option Pattern} (hbody : body.Proceeds) :
    TakesValue (catchBody scope param body) := by
  intro ctx exception
  refine inScope_types fun ctx => ?_
  split
  · exact hbody.types
  · exact ((bindPattern_types _ _).types (by simp) (by simp)).seq fun _ => hbody.types

theorem leave_types (target : Label) : (emit (.leave target)).Types ctx V Γ .nothing :=
  emit_types (by simp) rfl rfl

theorem protectedCatch_types {after : Label} (hblock : block.Proceeds)
    (hhandler : TakesValue handler) :
    (protectedCatch block handler after).Types ctx V Γ .nothing := by
  refine .label fun tryStart => .label fun handlerStart => ?_
  refine .label fun handlerEnd => (within_types (by simp) ?_).seq fun _ => ?_
  · exact .place <| hblock.types.seq fun _ => leave_types after
  refine .place <| (within_types (by simp) ?_).seq fun _ => ?_
  · refine (define_types .any (by simp) rfl rfl).bind fun exception => ?_
    exact (hhandler.types (by simp) (by simp)).seq fun _ => leave_types after
  · exact .place <| addRegion_types _

theorem protectedFinally_types (hcode : code.Proceeds)
    (hfinalizer : finalizer.Proceeds) :
    (protectedFinally code finalizer).Types ctx V Γ .nothing := by
  refine .label fun tryStart => .label fun handlerStart => ?_
  refine .label fun handlerEnd => (within_types (by simp) ?_).seq fun _ => ?_
  · exact .place <| hcode.types
  refine .place <| (within_types (by simp) ?_).seq fun _ => ?_
  · exact hfinalizer.types.seq fun _ => emit_types (by simp) rfl rfl
  · exact .place <| addRegion_types _

theorem protectedTry_types {handler : Option (Temp → Lower Unit)} {finalizer : Option (Lower Unit)}
    (hblock : block.Proceeds) (hhandler : ∀ m ∈ handler, TakesValue m)
    (hfinalizer : ∀ m ∈ finalizer, Proceeds m) :
    (protectedTry block handler finalizer).Types ctx V Γ .nothing := by
  refine .label fun after => ?_
  cases handler with
  | none =>
    cases finalizer with
    | none => exact hblock.types.seq fun _ => place_types after
    | some finalizer =>
      have hcode : (do block; emit (.leave after) : Lower Unit).Proceeds := fun _ =>
        hblock.types.seq fun _ => leave_types after
      exact (protectedFinally_types hcode (hfinalizer _ rfl)).seq fun _ => place_types after
  | some handler =>
    have hcatch : (protectedCatch block handler after).Proceeds := fun _ =>
      protectedCatch_types hblock (hhandler _ rfl)
    cases finalizer with
    | none => exact hcatch.types.seq fun _ => place_types after
    | some finalizer =>
      exact (protectedFinally_types hcatch (hfinalizer _ rfl)).seq fun _ => place_types after

/-- The state fields of a routed statement carry its number. -/
theorem pendingFields_types {β : Type} {R : Guarantee β} {k : PendingFields → Lower β}
    (h : ∀ n, (k (.numbered n)).Types ctx V Γ R) : (pendingFields >>= k).Types ctx V Γ R := by
  intro s a s' n hrun hready hn hV hΓ
  have hnext : (do
      modify fun s => { s with routedCount := s.routedCount + 1 }
      k (.numbered s.routedCount) : Lower β).Types ctx V Γ R :=
    .seq (modify_types fun _ => ⟨rfl, rfl, rfl, rfl, rfl, rfl, rfl, rfl⟩) fun _ => h s.routedCount
  exact hnext hrun hready hn hV hΓ

/-- In an async function the label of a routed region becomes a resume point for rejections. -/
theorem addReject_types (label : Label) (h : ctx.function.isAsync) :
    (some <$> addResumePoint label none .reject).Types ctx V Γ
      ⟨fun _ => [], fun state => state.toList.map Fact.point⟩ := by
  intro s a s' n hrun hready hn hV hΓ
  cases hrun
  refine ⟨.single (.rejectPoint h) (Session.extends_addReject label), by simp, fun d hd => ?_⟩
  obtain rfl := List.mem_singleton.1 hd
  exact ⟨_, Array.mem_push_self, rfl, rfl⟩

theorem routed_types {throwLabel : Label} {finallyRoute : Option FinallyRoute} (hres : ctx.isResumable)
    (h : ∀ ctx : Context, ctx.isResumable = true → code.Types ctx [] [] .nothing) :
    (routed (.numbered n) throwLabel finallyRoute code).Types ctx V Γ .nothing := by
  refine read_types ?_
  dsimp only
  split
  · rename_i hasync
    refine (addReject_types throwLabel hasync).settle fun state => ?_
    have hbody := h { ctx with frames := .routed ⟨throwLabel, state, .numbered n, finallyRoute⟩ :: ctx.frames } hres
    refine within_routed_types hres rfl ?_ hbody.anywhere
    rintro point rfl
    simp
  · have hbody := h { ctx with frames := .routed ⟨throwLabel, none, .numbered n, finallyRoute⟩ :: ctx.frames } hres
    exact within_routed_types hres rfl nofun hbody.anywhere

theorem routedHandler_types (hres : ctx.isResumable)
    (hhandler : TakesValue handler) :
    (routedHandler (.numbered n) handler).Types ctx V Γ .nothing := by
  refine (loadState_types .any (.exception n) ‹_› rfl).bind fun exception => ?_
  refine (clearState_types (.exception n) ‹_›).seq fun _ => ?_
  exact (setFlag_types (.hasException n) _ ‹_›).seq fun _ => hhandler.types (by simp) (by simp)

theorem routedCatch_types (hres : ctx.isResumable)
    (hblock : block.Proceeds) (hhandler : TakesValue handler) :
    (routedCatch (.numbered n) block handler).Types ctx V Γ .nothing := by
  refine .label fun catchLabel => .label fun after => ?_
  refine (clearState_types (.exception n) ‹_›).seq fun _ => ?_
  refine (routed_types hres fun _ _ => hblock.types).seq fun _ => ?_
  refine .branch <| .place ?_
  exact (routedHandler_types hres hhandler).seq fun _ => place_types after

theorem noteAt_types {thrown next : Label} (hres : ctx.isResumable) :
    (noteAt (.numbered n) thrown next).Types ctx V Γ .nothing := by
  refine .place <| .seq ?_ fun _ => branch_types next
  exact (setFlag_types (.hasException n) _ ‹_›).seq fun _ => setFlag_types (.hasReturn n) _ ‹_›

theorem testFlag_types {l target : Label} {name : String} (hname : StateName name)
    (hres : ctx.isResumable) : (testFlag l name target).Types ctx V Γ .nothing :=
  .place <| (loadState_types .bool hname ‹_› rfl).settle fun _ => branchIf_types (by simp)

theorem routedFinally_types {handler : Option (Temp → Lower Unit)}
    (hres : ctx.isResumable) (hblock : block.Proceeds)
    (hhandler : ∀ m ∈ handler, TakesValue m) (hfinalizer : finalizer.Proceeds) :
    (routedFinally (.numbered n) block handler finalizer).Types ctx V Γ .nothing := by
  rw [routedFinally_eq]
  refine .label fun catchLabel => .label fun exceptionToFinally => ?_
  refine .label fun exceptionInFinally => .label fun entry => ?_
  refine .label fun exit => .label fun checkReturn => .label fun after => ?_
  have hrest : (finishing (.numbered n) finalizer exceptionToFinally exceptionInFinally entry exit
      checkReturn after).Types ctx V Γ .nothing := by
    refine (noteAt_types hres).seq fun _ => .place ?_
    refine (routed_types hres fun _ _ => hfinalizer.types).seq fun _ => .branch ?_
    refine (noteAt_types hres).seq fun _ => (testFlag_types (.hasException n) hres).seq fun _ => ?_
    refine (loadState_types .any (.exception n) ‹_› rfl).settle fun _ => ?_
    refine (throwValue_types (by simp)).seq fun _ =>
      (testFlag_types (.hasReturn n) hres).seq fun _ => ?_
    refine (loadState_types .any (.returnValue n) ‹_› rfl).settle fun _ => ?_
    exact (returnValue_types (by simp)).seq fun _ => place_types _
  refine .seq ?_ fun _ => (routed_types hres fun _ _ => hblock.types).seq fun _ => .branch ?_
  · refine (clearState_types (.exception n) ‹_›).seq fun _ => ?_
    refine (setFlag_types (.hasException n) _ ‹_›).seq fun _ => ?_
    refine (clearState_types (.returnValue n) ‹_›).seq fun _ => ?_
    exact setFlag_types (.hasReturn n) _ ‹_›
  cases handler with
  | none => exact hrest
  | some handler =>
    refine .place ?_
    rw [← routedHandler_eq]
    refine (routed_types hres fun _ hres => routedHandler_types hres (hhandler _ rfl)).seq
      fun _ => ?_
    exact .branch hrest

theorem routedTry_types {handler : Option (Temp → Lower Unit)} {finalizer : Option (Lower Unit)}
    (hres : ctx.isResumable) (hblock : block.Proceeds) (hhandler : ∀ m ∈ handler, TakesValue m)
    (hfinalizer : ∀ m ∈ finalizer, Proceeds m) :
    (routedTry block handler finalizer).Types ctx V Γ .nothing := by
  refine pendingFields_types fun n => (report_types _).seq fun _ => ?_
  split
  · exact hblock.types
  · exact routedCatch_types hres hblock (hhandler _ rfl)
  · exact routedFinally_types hres hblock hhandler (hfinalizer _ rfl)

end Try

/-! ### Switches and statements -/

theorem freshLabels_types {α : Type} (l : List α) : (freshLabels l).Types ctx V Γ .nothing := by
  induction l with
  | nil => exact pure_types (by simp) (by simp)
  | cons a l ih => exact .label fun _ => ih.seq fun _ => pure_types (by simp) (by simp)

theorem switchTests_types {discriminant : Temp} {fallback : Option Label}
    {cases : List (SwitchCase × Label)} (h : .has discriminant .object ∈ Γ) :
    (switchTests discriminant fallback cases).Types ctx [] Γ .nothing := by
  induction cases generalizing fallback Γ with
  | nil => exact pure_types (by simp) (by simp)
  | cons case rest ih =>
    obtain ⟨⟨test, body⟩, label⟩ := case
    cases test with
    | none => exact ih h
    | some test =>
      refine (lowerExpr_types test).object fun value => ?_
      refine (define_types .bool (by simp [*]) rfl rfl).settle fun matched => ?_
      exact .branchIf (by simp) <| ih (by simp [h])

theorem switchStatement_types {discriminant : Lower Temp}
    {cases : List SwitchCase} {clauses : List Label → Lower Unit} (h : discriminant.GivesValue)
    (hclauses : ∀ labels, (clauses labels).Proceeds) :
    (switchStatement scope discriminant cases clauses).Types ctx V Γ .nothing := by
  refine read_types ?_
  split
  · exact decline_types _
  refine .label fun finish => h.types.settle fun _ => ?_
  refine (asObject_types (by simp)).settle fun value => inScope_types fun ctx => ?_
  refine (forM_types _ fun c _ => hoist_types _).seq fun _ =>
    (freshLabels_types _).seq fun labels => ?_
  refine (switchTests_types (by simp)).seq fun fallback => .branch ?_
  exact (within_types (by simp) (hclauses labels).types).seq fun _ => place_types finish

theorem declareAll_types (kind : DeclKind) (declarators : List Declarator) :
    (declareAll kind declarators).Proceeds := by
  intro ctx
  induction declarators with
  | nil => exact done_types
  | cons d rest ih =>
    unfold declareAll
    split
    · refine (lowerExpr_types _).types.bind fun t => ?_
      exact ((bindPattern_types _ _).types (by simp) (by simp)).seq fun _ => ih.anywhere
    · dsimp only
      split
      · refine undefined_types.bind fun t => ?_
        exact (initBinding_types (by simp) (by simp)).seq fun _ => ih.anywhere
      · exact ih
    · exact .of_fails fun _ _ _ h => by cases h

theorem bindTarget_types (target : LoopTarget) : TakesValue (bindTarget target) :=
  bindPattern_types _ _

theorem ifStatement_types {test : Lower Temp} {consequent : Lower Unit}
    {alternate : Option (Lower Unit)} (htest : test.GivesValue) (hconsequent : consequent.Proceeds)
    (halternate : ∀ m ∈ alternate, Proceeds m) :
    (ifStatement test consequent alternate).Types ctx V Γ .nothing := by
  refine .label fun finish => (condition_types htest).settle fun holds => ?_
  cases alternate with
  | none =>
    refine .branchIf (by simp) <| hconsequent.types.seq fun _ => ?_
    exact place_types finish
  | some alternate =>
    refine .label fun other => .branchIf (by simp) ?_
    refine hconsequent.types.seq fun _ => .branch <| .place ?_
    exact (halternate _ rfl).types.seq fun _ => place_types finish

theorem labeledStatement_types {name : String} (h : body.Proceeds) :
    (labeledStatement name body).Types ctx V Γ .nothing :=
  .label fun finish => (within_types (by simp) h.types).seq fun _ => place_types finish

theorem functionStatement_types (binding : BindingId) (ref : FunctionRef) :
    (functionStatement binding ref).Types ctx V Γ .nothing := by
  refine get_types fun s => ?_
  split
  · exact declareFunction_types binding ref
  · exact done_types

theorem forOfStatement_types {name : Option String} {target : LoopTarget}
    {iterable : Lower Temp} {bodySuspends : Bool} (hiterable : iterable.GivesValue)
    (hbody : body.Proceeds) :
    (forOfStatement name scope target iterable bodySuspends body).Types ctx V Γ .nothing := by
  refine read_types ?_
  split
  · exact suspendingForOfLoop_types (bindTarget_types target) hiterable hbody
  · exact forOfLoop_types (bindTarget_types target) hiterable hbody

theorem tryStatement_types {suspends : Bool} {block : Lower Unit}
    {handler : Option (Temp → Lower Unit)} {finalizer : Option (Lower Unit)}
    (hblock : block.Proceeds)
    (hhandler : ∀ m ∈ handler, TakesValue m) (hfinalizer : ∀ m ∈ finalizer, Proceeds m) :
    (tryStatement suspends block handler finalizer).Types ctx V Γ .nothing := by
  refine read_types ?_
  split
  · rename_i hroute
    exact routedTry_types (Bool.and_eq_true_iff.1 hroute).1 hblock hhandler hfinalizer
  · exact protectedTry_types hblock hhandler hfinalizer

mutual

theorem lowerStmt_types (stmt : Stmt) (name : Option String) : (lowerStmt stmt name).Proceeds := by
  intro ctx
  cases stmt with
  | expr value => exact (lowerExpr_types value).types.settle fun _ => done_types
  | declare kind declarators => exact declareAll_types kind declarators ctx
  | functionDecl binding ref => exact functionStatement_types binding ref
  | block scope body =>
    exact inScope_types fun _ => (hoist_types body).seq fun _ => (lowerStmts_types body).types
  | branch test consequent alternate =>
    rw [lowerStmt.eq_def]
    refine ifStatement_types (lowerExpr_types test) (lowerStmt_types consequent none) ?_
    cases alternate with
    | none => nofun
    | some alternate =>
      rintro _ ⟨⟩
      exact lowerStmt_types alternate none
  | whileLoop test body => exact whileLoop_types (lowerExpr_types test) (lowerStmt_types body none)
  | doWhile body test => exact doWhileLoop_types (lowerStmt_types body none) (lowerExpr_types test)
  | forLoop scope init test update body =>
    have htest : ∀ m ∈ test.map lowerExpr, GivesValue m := by
      intro m hm
      obtain ⟨test, -, rfl⟩ := Option.map_eq_some_iff.1 hm
      exact lowerExpr_types test
    have hskip : (pure () : Lower Unit).Proceeds := fun _ => done_types
    rw [lowerStmt.eq_def]
    refine forLoop_types ?_ htest ?_ (lowerStmt_types body none)
    · cases init with
      | none => exact hskip
      | some init => exact lowerStmt_types init none
    · cases update with
      | none => exact hskip
      | some e => exact fun _ => (lowerExpr_types e).types.settle fun _ => done_types
  | forIn scope target object body =>
    exact forInLoop_types (bindTarget_types target) (lowerExpr_types object) (lowerStmt_types body none)
  | forOf scope target iterable body =>
    exact forOfStatement_types (lowerExpr_types iterable) (lowerStmt_types body none)
  | switch scope discriminant cases =>
    exact switchStatement_types (lowerExpr_types discriminant) fun labels =>
      lowerClauses_types labels cases
  | labeled name' body =>
    show (if body.isLoop then _ else _ : Lower Unit).Types ctx [] [] .nothing
    split
    · exact lowerStmt_types body (some name') ctx
    · exact labeledStatement_types (lowerStmt_types body none)
  | breakTo name => exact jumpTo_types _ _ _
  | continueTo name => exact jumpTo_types _ _ _
  | ret value =>
    cases value with
    | none => exact undefined_types.settle fun _ => returnValue_types (by simp)
    | some value => exact (lowerExpr_types value).types.settle fun _ => returnValue_types (by simp)
  | raise value => exact (lowerExpr_types value).types.settle fun _ => throwValue_types (by simp)
  | tryCatch block handler finalizer =>
    have hblock : ∀ body, (lowerStmts body).Proceeds →
        (do hoist body; lowerStmts body : Lower Unit).Proceeds :=
      fun body h _ => (hoist_types body).seq fun _ => h.types
    rw [lowerStmt.eq_def]
    refine tryStatement_types (hblock _ (lowerStmts_types block)) ?_ ?_
    · cases handler with
      | none => nofun
      | some clause =>
        obtain ⟨scope, param, body⟩ := clause
        rintro _ ⟨⟩
        exact catchBody_types (hblock _ (lowerStmts_types body))
    · cases finalizer with
      | none => nofun
      | some body =>
        rintro _ ⟨⟩
        exact hblock _ (lowerStmts_types body)
  | empty => exact done_types

theorem lowerStmts_types (stmts : List Stmt) : (lowerStmts stmts).Proceeds := by
  intro ctx
  cases stmts with
  | nil => exact done_types
  | cons stmt rest => exact (lowerStmt_types stmt none).types.seq fun _ => (lowerStmts_types rest).types

theorem lowerClauses_types (labels : List Label) (cases : List SwitchCase) :
    (lowerClauses labels cases).Proceeds := by
  intro ctx
  cases labels with
  | nil => cases cases <;> exact done_types
  | cons label labels =>
    cases cases with
    | nil => exact done_types
    | cons clause rest =>
      cases clause with
      | clause test body =>
        exact .place <| (lowerStmts_types body).types.seq fun _ =>
          (lowerClauses_types labels rest).types

end

/-! ### Functions -/

theorem argumentDefault_types {index : Nat} {default : Lower Temp} (h : default.GivesValue) :
    (argumentDefault index default).Types ctx V Γ .nothing := by
  refine .label fun skip => (define_types .any (by simp) rfl rfl).settle fun t => ?_
  refine (define_types .bool (by simp) rfl rfl).settle fun isUndefined => ?_
  refine .branchIf (by simp) <| h.types.settle fun _ => ?_
  refine (asObject_types (by simp)).settle fun value => ?_
  exact (perform_types (by simp) rfl).seq fun _ => place_types skip

theorem livesInArgument_types (pattern : Pattern) :
    (livesInArgument pattern).Types ctx V Γ .nothing := by
  unfold livesInArgument
  split
  · refine (placement_types _).settle fun home => ?_
    split <;> exact pure_types (by simp) (by simp)
  · exact pure_types (by simp) (by simp)

theorem parameter_types (index : Nat) (param : Param) : (parameter index param).Types ctx V Γ .nothing := by
  unfold parameter
  split
  · exact decline_types _
  refine (livesInArgument_types _).seq fun lives => ?_
  split
  · split
    · exact done_types
    · exact argumentDefault_types (lowerExpr_types _)
  refine (define_types .any (by simp) rfl rfl).bind fun argument => ?_
  split
  · exact (bindPattern_types _ _).types (by simp) (by simp)
  · exact (valueOrDefault_types (by simp) (lowerExpr_types _)).bind fun t =>
      (bindPattern_types _ _).types (by simp) (by simp)

theorem parameters_types (index : Nat) (params : List Param) :
    (parameters index params).Types ctx V Γ .nothing := by
  induction params generalizing index with
  | nil => exact done_types
  | cons param rest ih => exact (parameter_types index param).seq fun _ => ih _

theorem plainEntry_types (params : List Param) : (plainEntry params).Types ctx V Γ .nothing := by
  refine read_types ?_
  split
  · exact (perform_types (by simp) rfl).seq fun _ => parameters_types 0 params
  · exact parameters_types 0 params

/-- What follows the dispatch of a resumable function. -/
theorem resumableStart_types (params : List Param) (start : Label) (hres : ctx.isResumable) :
    (do
      place start
      let bodyStart ← freshLabel
      let started ← loadState StateField.started.name .bool
      branchIf true started bodyStart
      setFlag StateField.started.name true
      parameters 0 params
      place bodyStart : Lower Unit).Types ctx V Γ .nothing := by
  refine .place <| .label fun bodyStart => ?_
  refine (loadState_types .bool (.fixed _) ‹_› rfl).settle fun started => .branchIf (by simp) ?_
  exact (setFlag_types (.fixed _) _ ‹_›).seq fun _ => (parameters_types 0 params).seq fun _ => place_types _

/-- What follows the entry of a function. -/
theorem functionRest_types (f : Function) :
    (do
      hoist f.body
      lowerStmts f.body
      returnValue (← undefined)
      placeSharedExit
      let s ← get
      report (.lowered f.name s.code.size s.temps.size) : Lower Unit).Types ctx V Γ .nothing := by
  refine (hoist_types _).seq fun _ => (lowerStmts_types _).types.seq fun _ => ?_
  refine undefined_types.settle fun _ => (returnValue_types (by simp)).seq fun _ => ?_
  exact placeSharedExit_types.seq fun _ => get_types fun _ => report_types _

/-- What a function is lowered in. -/
theorem exists_setting (h : Context.ofFunction? tree registry options f = some ctx) :
    ∃ scope, tree.scope? f.scope = some scope ∧ ctx.setting = ⟨f, tree, registry, scope.name⟩ ∧
      ctx.blocks = [] ∧ ctx.frames = [] := by
  obtain ⟨chain, -, h⟩ := Option.bind_eq_some_iff.1 h
  obtain ⟨captured, -, h⟩ := Option.bind_eq_some_iff.1 h
  obtain ⟨scope, hscope, h⟩ := Option.bind_eq_some_iff.1 h
  cases h
  exact ⟨scope, hscope, rfl, rfl, rfl⟩

theorem ready_empty
    (h : Context.ofFunction? tree registry options f = some ctx) : ctx.Ready {} := by
  obtain ⟨scope, hscope, hsetting, hblocks, hframes⟩ := exists_setting h
  refine ⟨Session.sound_empty _, by simp [hblocks], by simp [hframes], by simp [hframes],
    fun scope' hscope' => ?_⟩
  have htree : ctx.setting.tree.scope? ctx.setting.function.scope = some scope' := hscope'
  rw [hsetting] at htree
  obtain rfl := Option.some.inj (htree.symm.trans hscope)
  exact (congrArg Setting.leafName hsetting).symm

/-- The dispatch comes first in a resumable function, and all the rest is a sequence of steps. -/
theorem resumableEntry_leads {params : List Param} {s' : Session}
    (hrun : resumableEntry params ctx s = .ok u s') (hready : ctx.Ready s)
    (hres : ctx.isResumable) (hcode : s.code = #[]) :
    ∃ s₁ start, s.Leads ctx.setting 0 s₁ ∧ s₁.code = #[.dispatch [] start] ∧
      s₁.Leads ctx.setting 0 s' := by
  obtain ⟨start, s₀, hlabel, hrun⟩ := bind_ok hrun
  obtain ⟨⟨⟩, s₁, hemit, hrest⟩ := bind_ok hrun
  have hlabel' := freshLabel_types.leads hlabel hready
  have hcode₀ : s₀.code = #[] := by
    cases hlabel
    exact hcode
  have hs₁ : s₁ = { s₀ with code := #[.dispatch [] start] } := by
    cases hemit
    simp [hcode₀]
  have henter : s₀.Leads ctx.setting 0 s₁ := by
    rw [hs₁]
    exact .single (.enter (w := ctx.setting) hres hcode₀) (.of_same rfl rfl rfl rfl)
  refine ⟨s₁, start, hlabel'.trans henter, by rw [hs₁], ?_⟩
  exact (resumableStart_types params start ‹_›).leads hrest ((hready.mono hlabel').mono henter)

/-- The lowering of a function is a sequence of steps. Those of a resumable function start with the
dispatch. -/
theorem wholeFunction_leads (hready : ctx.Ready {}) (hrun : wholeFunction ctx {} = .ok u s) :
    ∃ s₁, ({} : Session).Leads ctx.setting 0 s₁ ∧ s₁.Leads ctx.setting 0 s ∧
      (ctx.isResumable = true → ∃ start, s₁.code = #[.dispatch [] start]) := by
  replace hrun := read_ok hrun
  obtain ⟨⟨⟩, s₀, hreport, hrun⟩ := bind_ok hrun
  have hcode₀ : s₀.code = #[] := by
    cases hreport
    rfl
  have hreport := (report_types _).leads hreport hready
  have hready₀ := hready.mono hreport
  dsimp only at hrun
  split at hrun
  · rename_i hres
    obtain ⟨⟨⟩, s₂, hentry, hrun⟩ := bind_ok hrun
    obtain ⟨s₁, start, hfirst, hcode, hsecond⟩ := resumableEntry_leads hentry hready₀ hres hcode₀
    have hrest := (functionRest_types ctx.function).leads hrun ((hready₀.mono hfirst).mono hsecond)
    exact ⟨s₁, hreport.trans hfirst, hsecond.trans hrest, fun _ => ⟨start, hcode⟩⟩
  · rename_i hplain
    obtain ⟨⟨⟩, s₂, hentry, hrun⟩ := bind_ok hrun
    have hfirst := (plainEntry_types _).leads hentry hready₀
    have hrest := (functionRest_types ctx.function).leads hrun (hready₀.mono hfirst)
    exact ⟨s₂, hreport.trans hfirst, hrest, fun hres => absurd hres hplain⟩

end ScriptLowering.Lower
