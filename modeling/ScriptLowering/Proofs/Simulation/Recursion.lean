import ScriptLowering.Proofs.Simulation.Step

/-!
# Expressions, statements and functions on both sides

The recursion of the lowering follows every lawful simulation: a part of the source is lowered to
related code on both sides, and every form hands related temps to the steps that combine them.
-/

namespace ScriptLowering.Lower

open Simulation

variable {Φ : Simulation} {D : Pairing}

attribute [local grind =] Operation.uses Operation.withUses Effect.uses Effect.withUses
  Operation.linked_iff Effect.linked_iff List.headD_cons List.tail_cons Frame.isNative

section

variable [hΦ : Φ.Plain]
variable {params : List Param} {target : LoopTarget} {body : Lower Unit} {index : Nat}
  {scope : Option ScopeId} {pattern : Pattern} {source source' value value' : Temp}

/-! ### Destructuring -/

@[grind ←] theorem storeBinding_relates {mode : BindMode} {id : BindingId}
    (hid : Φ.Resolves id) (h : (value, value') ∈ D) :
    Φ.Relates D (storeBinding mode id value) (storeBinding mode id value') := by
  cases mode
  · exact initBinding_relates hid h
  · exact assignBinding_relates hid h

@[grind ←] theorem openPattern_relates (h : (value, value') ∈ D) :
    Φ.Relates D (openPattern pattern value) (openPattern pattern value') := by
  unfold openPattern
  refine read_bind (fun _ _ => rfl) fun ctx => ?_
  repeat' first
    | with_reducible refine .bind_temp ?_ fun _ _ => ?_
    | with_reducible refine .bind_same ?_ fun _ => ?_
    | split
  all_goals grind

@[grind ←] theorem objectRest_relates {keys : List String} (h : (source, source') ∈ D) :
    Φ.Relates D (objectRest source keys) (objectRest source' keys) := by
  refine .bind (mapM_relates keys (fun _ => List.Forall₂.nil) (fun _ _ _ _ _ => List.Forall₂.cons)
    fun key _ _ => string_relates key) fun E _ _ hE => ?_
  refine .bind_temp (hΦ.define ⟨Linkable.mono hE (List.subset_append_left _ _), rfl⟩) fun _ _ => ?_
  exact define_relates (by grind)

@[grind ←] theorem patternItem_relates {position : Nat} (h : (source, source') ∈ D) :
    Φ.Relates D (patternItem source position) (patternItem source' position) :=
  .bind_temp (number_relates _) fun _ _ => .bind_temp (asObject_relates (by grind)) fun _ _ =>
    define_relates (by grind)

@[grind ←] theorem arrayRest_relates {start : Nat} (h : (source, source') ∈ D) :
    Φ.Relates D (arrayRest source start) (arrayRest source' start) :=
  .bind_temp (number_relates _) fun _ _ => .bind_temp (asObject_relates (by grind)) fun _ _ =>
    define_relates (by grind)

/-! ### Expressions and patterns -/

omit hΦ in
/-- The target of an assignment is resolved if the expression that denotes it is. -/
theorem resolveTarget_bind {β : Type} [Linkable β] {e : Expr} {k k' : Target → Lower β}
    (he : Φ.Resolves e) (h : Φ.Follows D (resolveTarget e))
    (hk : ∀ E target target', Linked E target target' → Φ.Resolves target →
      Φ.Relates (E ++ D) (k target) (k' target')) :
    Φ.Relates D (resolveTarget e >>= k) (resolveTarget e >>= k') := by
  refine h.bind_run fun E target target' hlinked ⟨ctx, _, s, s', _, hrun⟩ => hk E target target' hlinked ?_
  cases target with
  | property | item => exact fun _ _ => trivial
  | binding id =>
    cases e with
    | ident binding =>
      cases hrun
      exact he.imp fun _ h => h
    | member base name optional =>
      cases optional with
      | true => cases hrun
      | false =>
        obtain ⟨_, _, -, hrun⟩ := bind_ok hrun
        cases hrun
    | index base key optional =>
      cases optional with
      | true => cases hrun
      | false =>
        obtain ⟨_, _, -, hrun⟩ := bind_ok hrun
        obtain ⟨_, _, -, hrun⟩ := bind_ok hrun
        obtain ⟨_, _, -, hrun⟩ := bind_ok hrun
        cases hrun
    | _ => cases hrun

mutual

theorem lowerExpr_relates (e : Expr) (he : Φ.Resolves e) (D : Pairing) :
    Φ.Follows D (lowerExpr e) := by
  cases e with
  | number value => exact number_relates value
  | string value => exact string_relates value
  | bool value => exact bool_relates value
  | null => exact null_relates
  | undefined => exact undefined_relates
  | ident binding => exact loadBinding_relates he
  | intrinsic name => exact hΦ.define ⟨.nil, rfl⟩
  | classRef name => exact hΦ.define ⟨.nil, rfl⟩
  | this => exact thisValue_relates
  | function ref => exact closure_relates he
  | array elements =>
    exact .bind_same (forbidSuspend_relates _) fun _ =>
      lowerElements_relates [] [] elements he _ .nil
  | object members =>
    exact .bind_same (forbidSuspend_relates _) fun _ =>
      lowerMembers_relates [] [] members he _ .nil
  | template texts holes =>
    refine .bind_same (forbidSuspend_relates _) fun _ =>
      .bind (lowerTemplate_relates none none holes texts he _ trivial) fun E joined joined' hE => ?_
    cases joined <;> cases joined'
    case some.some t t' => exact pure_temp_relates (List.mem_append_left _ hE)
    case none.none => exact string_relates ""
    all_goals exact hE.elim
  | unary op operand => exact unary_relates (lowerExpr_relates operand he D)
  | binary op left right =>
    exact .bind_same (forbidSuspend_relates _) fun _ =>
      binary_relates (lowerExpr_relates left (he.imp fun _ h => h.1) _)
        (lowerExpr_relates right (he.imp fun _ h => h.2) _)
  | logical op left right =>
    exact logical_relates (lowerExpr_relates left (he.imp fun _ h => h.1) D)
      (lowerExpr_relates right (he.imp fun _ h => h.2) D)
  | conditional test consequent alternate =>
    exact conditional_relates (lowerExpr_relates test (he.imp fun _ h => h.1) D)
      (lowerExpr_relates consequent (he.imp fun _ h => h.2.1) D)
      (lowerExpr_relates alternate (he.imp fun _ h => h.2.2) D)
  | assign pattern value =>
    have hpattern : Φ.Resolves pattern := he.imp fun _ h => h.1
    have hvalue := lowerExpr_relates value (he.imp fun _ h => h.2)
    cases pattern with
    | binding binding =>
      exact (hvalue D).bind_temp fun _ _ =>
        .bind_same (assignBinding_relates hpattern (by grind)) fun _ =>
          pure_temp_relates (by grind)
    | target expr =>
      have hexpr : Φ.Resolves expr := hpattern
      have hassign : ∀ D, Φ.Follows D
          (do
            let target ← resolveTarget expr
            let value ← lowerExpr value
            writeTarget target value
            return value : Lower Temp) := fun D =>
        resolveTarget_bind hexpr (resolveTarget_relates expr hexpr D) fun E _ _ hE htarget =>
          (hvalue _).bind_temp fun _ _ => .bind_same (writeTarget_relates htarget
            (Linkable.mono hE (by grind)) (by grind)) fun _ => pure_temp_relates (by grind)
      show Φ.Relates D (if !expr.isIdent then _ else _ : Lower Temp) (if !expr.isIdent then _ else _)
      split
      · exact .bind_same (forbidSuspend_relates _) fun _ => hassign _
      · exact hassign D
    | _ =>
      exact (hvalue D).bind_temp fun t t' =>
        .bind_same (bindPattern_relates .assign _ hpattern t t' _ (by grind)) fun _ =>
          pure_temp_relates (by grind)
  | compoundAssign op target value =>
    have htarget : Φ.Resolves target := he.imp fun _ h => h.1
    refine .bind_same (forbidSuspend_relates _) fun _ =>
      resolveTarget_bind htarget (resolveTarget_relates target htarget _) fun E place place' hE hplace => ?_
    refine .bind_temp (readTarget_relates hplace (Linkable.mono hE (by grind))) fun _ _ => ?_
    refine (lowerExpr_relates value (he.imp fun _ h => h.2) _).bind_temp fun _ _ => ?_
    refine .bind_temp (applyBinary_relates (by grind) (by grind)) fun _ _ => ?_
    exact .bind_same (writeTarget_relates hplace (Linkable.mono hE (by grind)) (by grind)) fun _ =>
      pure_temp_relates (by grind)
  | update op inFront target =>
    have htarget : Φ.Resolves target := he
    exact resolveTarget_bind htarget (resolveTarget_relates target htarget D) fun E _ _ hE hplace =>
      update_relates hplace (Linkable.mono hE (List.subset_append_left _ _))
  | member base name optional =>
    refine (lowerExpr_relates base he D).bind_temp fun object object' => ?_
    split
    · exact optionally_relates (by grind) (getProperty_relates (by grind))
    · exact getProperty_relates (by grind)
  | index base key optional =>
    refine .bind_same (forbidSuspend_relates _) fun _ => ?_
    refine (lowerExpr_relates base (he.imp fun _ h => h.1) _).bind_temp fun object object' => ?_
    have haccess : ∀ D, (object, object') ∈ D → Φ.Relates D
        (do getItem object (← lowerExpr key) : Lower Temp)
        (do getItem object' (← lowerExpr key) : Lower Temp) := fun D h =>
      (lowerExpr_relates key (he.imp fun _ h => h.2) D).bind_temp fun _ _ =>
        getItem_relates (by grind) (by grind)
    dsimp only
    split
    · exact optionally_relates (by grind) (haccess _ (by grind))
    · exact haccess _ (by grind)
  | call callee args optional =>
    have hargs : RelatesArgs Φ (fun array => lowerArgs array args) fun array => lowerArgs array args :=
      fun array array' D h => lowerArgs_relates array array' args (he.imp fun _ h => h.2) D h
    have hresolved : Φ.Resolves callee := he.imp fun _ h => h.1
    have hcallee := lowerExpr_relates callee hresolved D
    cases optional with
    | true =>
      cases callee with
      | member base name optional =>
        cases optional with
        | true => exact optionalCall_relates hcallee (arguments_relates hargs)
        | false =>
          exact optionalMethodCall_relates (lowerExpr_relates base hresolved D)
            (arguments_relates hargs)
      | _ => exact optionalCall_relates hcallee (arguments_relates hargs)
    | false =>
      cases callee with
      | member base name optional =>
        cases optional with
        | true => exact plainCall_relates hresolved hcallee hargs
        | false =>
          exact memberCall_relates (lowerExpr_relates base hresolved D) hargs
      | _ => exact plainCall_relates hresolved hcallee hargs
  | superCall args =>
    exact superCall_relates fun array array' D h =>
      lowerArgs_relates array array' args he D h
  | newClass className args =>
    exact newClass_relates fun array array' D h =>
      lowerArgs_relates array array' args he D h
  | newIntrinsic name args =>
    exact newIntrinsic_relates fun array array' D h =>
      lowerArgs_relates array array' args he D h
  | newValue callee args =>
    exact newValue_relates (lowerExpr_relates callee (he.imp fun _ h => h.1) D)
      (arguments_relates fun array array' D h =>
        lowerArgs_relates array array' args (he.imp fun _ h => h.2) D h)
  | sequence exprs => exact lowerSequence_relates none none exprs he D trivial
  | await operand =>
    exact await_relates (he.pauses fun h => h.1 rfl)
      (lowerExpr_relates operand (he.imp fun _ h => h.2) D)
  | yield operand delegates =>
    have hpause : Φ.pauses = true := he.pauses fun h => h.1 rfl
    cases operand with
    | none => exact yieldExpr_relates hpause undefined_relates
    | some operand =>
      exact yieldExpr_relates hpause (lowerExpr_relates operand (he.imp fun _ h => h.2) D)

theorem resolveTarget_relates (e : Expr) (he : Φ.Resolves e) (D : Pairing) :
    Φ.Follows D (resolveTarget e) := by
  cases e with
  | ident binding => exact pure_relates (α := Target) rfl
  | member base name optional =>
    cases optional with
    | true => exact decline_relates _
    | false =>
      exact (lowerExpr_relates base he D).bind_temp fun _ _ =>
        pure_relates (α := Target) ⟨List.mem_cons_self, rfl⟩
  | index base key optional =>
    cases optional with
    | true => exact decline_relates _
    | false =>
      exact .bind_same (forbidSuspend_relates _) fun _ =>
        (lowerExpr_relates base (he.imp fun _ h => h.1) _).bind_temp fun _ _ =>
        (lowerExpr_relates key (he.imp fun _ h => h.2) _).bind_temp fun _ _ =>
          pure_relates (α := Target) ⟨.tail _ (.head _), (.head _)⟩
  | _ => exact decline_relates _

theorem lowerSequence_relates (last last' : Option Temp) (exprs : List Expr) (he : Φ.Resolves exprs)
    (D : Pairing) (h : Linked D last last') :
    Φ.Relates D (lowerSequence last exprs) (lowerSequence last' exprs) := by
  cases exprs with
  | nil =>
    cases last <;> cases last'
    case none.none => exact undefined_relates
    case some.some => exact pure_temp_relates h
    all_goals exact h.elim
  | cons expr rest =>
    have hrest : Φ.Follows D (lowerExpr expr >>= fun value => lowerSequence (some value) rest) :=
      (lowerExpr_relates expr (he.imp fun _ h => h.1) D).bind_temp fun t t' =>
        lowerSequence_relates (some t) (some t') rest (he.imp fun _ h => h.2) _ (.head _)
    cases last <;> cases last' <;> exact hrest

theorem lowerTemplate_relates (before before' : Option Temp) (holes : List Expr)
    (texts : List String) (he : Φ.Resolves holes) (D : Pairing) (h : Linked D before before') :
    Φ.Relates D (lowerTemplate before holes texts) (lowerTemplate before' holes texts) := by
  cases holes with
  | nil => exact concatConstants_relates h
  | cons hole holes =>
    cases texts with
    | nil => exact pure_relates h
    | cons text texts =>
      refine .bind (concatConstant_relates h) fun E before before' hE => ?_
      refine (lowerExpr_relates hole (he.imp fun _ h => h.1) _).bind_temp fun _ _ => ?_
      refine .bind_temp (asText_relates (by grind)) fun _ _ => ?_
      refine .bind_temp (concatText_relates (Linkable.mono hE (by grind)) (by grind))
        fun joined joined' => ?_
      exact lowerTemplate_relates (some joined) (some joined') holes texts (he.imp fun _ h => h.2) _
        (.head _)

theorem lowerElements_relates (leading leading' : List Temp) (elements : List Element)
    (he : Φ.Resolves elements) (D : Pairing) (h : Linked D leading leading') :
    Φ.Relates D (lowerElements leading elements) (lowerElements leading' elements) := by
  cases elements with
  | nil => exact hΦ.define ⟨h, rfl⟩
  | cons element rest =>
    cases element with
    | item value =>
      refine bind_object (lowerExpr_relates value (he.imp fun _ h => h.1) D) fun t t' => ?_
      refine lowerElements_relates (leading ++ [t]) (leading' ++ [t']) rest (he.imp fun _ h => h.2) _ ?_
      exact List.rel_append (Linkable.mono h (by grind)) (.cons (.head _) .nil)
    | hole =>
      refine .bind_temp (undefined_relates) fun _ _ => ?_
      refine .bind_temp (asObject_relates (by grind)) fun t t' => ?_
      refine lowerElements_relates (leading ++ [t]) (leading' ++ [t']) rest he _ ?_
      exact List.rel_append (Linkable.mono h (by grind)) (.cons (.head _) .nil)
    | spread value =>
      refine .bind_temp (hΦ.define ⟨h, rfl⟩) fun array array' => ?_
      refine bind_object (lowerExpr_relates value (he.imp fun _ h => h.1) _) fun _ _ => ?_
      refine .bind_same (perform_relates (by grind)) fun _ => ?_
      exact .bind_same (appendElements_relates array array' rest (he.imp fun _ h => h.2) _ (by grind)) fun _ =>
        pure_temp_relates (by grind)

theorem appendElements_relates (array array' : Temp) (elements : List Element)
    (he : Φ.Resolves elements) (D : Pairing) (h : (array, array') ∈ D) :
    Φ.Relates D (appendElements array elements) (appendElements array' elements) := by
  cases elements with
  | nil => exact pure_same_relates ()
  | cons element rest =>
    cases element with
    | item value | spread value =>
      refine bind_object (lowerExpr_relates value (he.imp fun _ h => h.1) D) fun _ _ => ?_
      exact .bind_same (perform_relates (by grind)) fun _ =>
        appendElements_relates array array' rest (he.imp fun _ h => h.2) _ (by grind)
    | hole =>
      refine .bind_temp (undefined_relates) fun _ _ => ?_
      exact .bind_same (perform_relates (by grind)) fun _ =>
        appendElements_relates array array' rest he _ (by grind)

theorem lowerMembers_relates (leading leading' : List (String × Temp)) (members : List Member)
    (he : Φ.Resolves members) (D : Pairing) (h : Linked D leading leading') :
    Φ.Relates D (lowerMembers leading members) (lowerMembers leading' members) := by
  cases members with
  | nil => exact hΦ.define (linked_newObject h)
  | cons member rest =>
    cases member with
    | named name value =>
      refine bind_object (lowerExpr_relates value (he.imp fun _ h => h.1) D) fun t t' => ?_
      refine lowerMembers_relates (leading ++ [(name, t)]) (leading' ++ [(name, t')]) rest
        (he.imp fun _ h => h.2) _ ?_
      exact List.rel_append (Linkable.mono h (by grind)) (.cons ⟨rfl, (.head _)⟩ .nil)
    | computed key value =>
      refine .bind_temp (hΦ.define (linked_newObject h)) fun object object' => ?_
      refine bind_object (lowerExpr_relates key (he.imp fun _ h => h.1) _) fun _ _ => ?_
      refine bind_object (lowerExpr_relates value (he.imp fun _ h => h.2.1) _) fun _ _ => ?_
      refine .bind_same (perform_relates (by grind)) fun _ => ?_
      exact .bind_same (addMembers_relates object object' rest (he.imp fun _ h => h.2.2) _ (by grind)) fun _ =>
        pure_temp_relates (by grind)
    | spread value =>
      refine .bind_temp (hΦ.define (linked_newObject h)) fun object object' => ?_
      refine bind_object (lowerExpr_relates value (he.imp fun _ h => h.1) _) fun _ _ => ?_
      refine .bind_temp (define_relates (by grind)) fun _ _ => ?_
      exact .bind_same (addMembers_relates object object' rest (he.imp fun _ h => h.2) _ (by grind)) fun _ =>
        pure_temp_relates (by grind)

theorem addMembers_relates (object object' : Temp) (members : List Member) (he : Φ.Resolves members)
    (D : Pairing) (h : (object, object') ∈ D) :
    Φ.Relates D (addMembers object members) (addMembers object' members) := by
  cases members with
  | nil => exact pure_same_relates ()
  | cons member rest =>
    cases member with
    | named name value =>
      refine bind_object (lowerExpr_relates value (he.imp fun _ h => h.1) D) fun _ _ => ?_
      exact .bind_same (perform_relates (by grind)) fun _ =>
        addMembers_relates object object' rest (he.imp fun _ h => h.2) _ (by grind)
    | computed key value =>
      refine bind_object (lowerExpr_relates key (he.imp fun _ h => h.1) D) fun _ _ => ?_
      refine bind_object (lowerExpr_relates value (he.imp fun _ h => h.2.1) _) fun _ _ => ?_
      exact .bind_same (perform_relates (by grind)) fun _ =>
        addMembers_relates object object' rest (he.imp fun _ h => h.2.2) _ (by grind)
    | spread value =>
      refine bind_object (lowerExpr_relates value (he.imp fun _ h => h.1) D) fun _ _ => ?_
      exact .bind_temp (define_relates (by grind)) fun _ _ =>
        addMembers_relates object object' rest (he.imp fun _ h => h.2) _ (by grind)

theorem lowerArgs_relates (array array' : Option Temp) (args : List Argument)
    (he : Φ.Resolves args) (D : Pairing) (h : Linked D array array') :
    Φ.Relates D (lowerArgs array args) (lowerArgs array' args) := by
  cases args with
  | nil => exact pure_relates (α := List Temp) .nil
  | cons arg rest =>
    cases arg with
    | plain value | spread value =>
      refine bind_object (lowerExpr_relates value (he.imp fun _ h => h.1) D) fun t t' => ?_
      cases array <;> cases array'
      case none.none =>
        refine .bind (lowerArgs_relates none none rest (he.imp fun _ h => h.2) _ trivial) fun E _ _ hE => ?_
        exact pure_relates (α := List Temp) (.cons (by grind) (Linkable.mono hE (by grind)))
      case some.some array array' =>
        have harray : (array, array') ∈ D := h
        refine .bind_same (perform_relates (by grind)) fun _ => ?_
        refine .bind (lowerArgs_relates (some array) (some array') rest (he.imp fun _ h => h.2) _
          (.tail _ harray)) fun E _ _ hE => ?_
        exact pure_relates (α := List Temp) (.cons (by grind) (Linkable.mono hE (by grind)))
      all_goals exact h.elim

theorem bindPattern_relates (mode : BindMode) (pattern : Pattern) (he : Φ.Resolves pattern)
    (value value' : Temp) (D : Pairing) (h : (value, value') ∈ D) :
    Φ.Relates D (bindPattern mode pattern value) (bindPattern mode pattern value') := by
  cases pattern with
  | binding binding => exact storeBinding_relates he h
  | target expr =>
    have hexpr : Φ.Resolves expr := he
    exact resolveTarget_bind hexpr (resolveTarget_relates expr hexpr D) fun E _ _ hE htarget =>
      writeTarget_relates htarget (Linkable.mono hE (by grind)) (by grind)
  | withDefault inner default =>
    refine .bind_same (forbidSuspend_relates _) fun _ => ?_
    refine .bind_temp (valueOrDefault_relates (by grind) (lowerExpr_relates default (he.imp fun _ h => h.2) _))
      fun value value' => ?_
    exact bindPattern_relates mode inner (he.imp fun _ h => h.1) value value' _ (by grind)
  | object properties rest =>
    rw [bindPattern, bindPattern]
    refine .bind_temp (openPattern_relates h) fun source source' =>
      .bind_same (bindProperties_relates mode source source' properties (he.imp fun _ h => h.1) _
        (by grind)) fun _ => ?_
    cases rest with
    | none => exact pure_same_relates ()
    | some rest =>
      exact .bind_temp (objectRest_relates (by grind)) fun t t' =>
        bindPattern_relates mode rest (he.imp fun _ h => h.2) t t' _ (by grind)
  | array elements rest =>
    rw [bindPattern, bindPattern]
    refine .bind_temp (openPattern_relates h) fun source source' =>
      .bind_same (bindElements_relates mode source source' 0 elements (he.imp fun _ h => h.1) _
        (by grind)) fun _ => ?_
    cases rest with
    | none => exact pure_same_relates ()
    | some rest =>
      exact .bind_temp (arrayRest_relates (by grind)) fun t t' =>
        bindPattern_relates mode rest (he.imp fun _ h => h.2) t t' _ (by grind)

theorem bindProperties_relates (mode : BindMode) (source source' : Temp)
    (properties : List (String × Pattern)) (he : Φ.Resolves properties) (D : Pairing) (h : (source, source') ∈ D) :
    Φ.Relates D (bindProperties mode source properties) (bindProperties mode source' properties) := by
  cases properties with
  | nil => exact pure_same_relates ()
  | cons property rest =>
    obtain ⟨key, inner⟩ := property
    refine .bind_temp (define_relates (by grind)) fun value value' => ?_
    exact .bind_same (bindPattern_relates mode inner (he.imp fun _ h => h.1) value value' _ (by grind)) fun _ =>
      bindProperties_relates mode source source' rest (he.imp fun _ h => h.2) _ (by grind)

theorem bindElements_relates (mode : BindMode) (source source' : Temp) (position : Nat)
    (elements : List (Option Pattern)) (he : Φ.Resolves elements) (D : Pairing) (h : (source, source') ∈ D) :
    Φ.Relates D (bindElements mode source position elements)
      (bindElements mode source' position elements) := by
  cases elements with
  | nil => exact pure_same_relates ()
  | cons element rest =>
    cases element with
    | none => exact bindElements_relates mode source source' (position + 1) rest he D h
    | some inner =>
      refine .bind_temp (patternItem_relates h) fun value value' => ?_
      exact .bind_same (bindPattern_relates mode inner (he.imp fun _ h => h.1) value value' _ (by grind)) fun _ =>
        bindElements_relates mode source source' (position + 1) rest (he.imp fun _ h => h.2) _ (by grind)

end

/-! ### Patterns of statements -/

section Bound

variable {ctx : Context} {s s' : Session}

omit hΦ in
theorem openPattern_still {t : Temp} (hres : ctx.isResumable = true)
    (h : openPattern pattern value ctx s = .ok t s') : pattern.suspends = false := by
  have h₁ := read_ok h
  split at h₁
  · cases h₁
  · rename_i hcond
    simpa [hres] using hcond

omit hΦ in
theorem forbidSuspend_still {e : Expr} (hres : ctx.isResumable = true)
    (h : forbidSuspend [e] ctx s = .ok () s') : e.suspends = false := by
  have h₁ := read_ok h
  split at h₁
  · cases h₁
  · rename_i hcond
    simpa [hres, Expr.anySuspends] using hcond

/-- A statement binds a value to a pattern. If the run must not suspend, a pattern that would is
declined. -/
theorem bindBound_relates (mode : BindMode) (pattern : Pattern) (hp : Φ.Resolves (BoundPattern.mk pattern))
    (value value' : Temp) (D : Pairing) (h : (value, value') ∈ D) :
    Φ.Relates D (bindPattern mode pattern value) (bindPattern mode pattern value') := by
  by_cases hstill : Φ.pauses = false → pattern.suspends = false
  · have hpattern : Φ.Resolves pattern
      | .resolved tree, htree => hp (.resolved tree) htree
      | .still, hpauses => pattern.meets_still (hstill hpauses)
    exact bindPattern_relates mode pattern hpattern value value' D h
  cases pattern with
  | binding id => exact absurd (fun _ => rfl) hstill
  | target expr => exact absurd (hp .still) hstill
  | object _ _ | array _ _ =>
    rw [bindPattern, bindPattern]
    exact (openPattern_relates h).bind_run fun _ _ _ _ ⟨ctx, _, _, _, hctx, hrun⟩ =>
      absurd (fun hpauses => openPattern_still (hΦ.resumable hctx hpauses) hrun) hstill
  | withDefault inner default =>
    rw [bindPattern, bindPattern]
    refine (forbidSuspend_relates [default]).bind_run fun _ _ _ _ ⟨ctx, _, _, _, hctx, hrun⟩ => ?_
    have hdefault : Φ.Resolves default
      | .resolved tree, htree => (hp (.resolved tree) htree).2
      | .still, hpauses => default.meets_still (forbidSuspend_still (hΦ.resumable hctx hpauses) hrun)
    have hinner : Φ.Resolves (BoundPattern.mk inner)
      | .resolved tree, htree => (hp (.resolved tree) htree).1
      | .still, hpauses => hp .still hpauses
    refine .bind_temp (valueOrDefault_relates (by grind) (lowerExpr_relates default hdefault _))
      fun value value' => ?_
    exact bindBound_relates mode inner hinner value value' _ (by grind)

end Bound

/-! ### Steps of statements -/

section Steps

variable {iterable : Lower Temp} {done iterator : Carrier}

@[grind ←] theorem increment_relates (carrier : Carrier) : Φ.Follows D (increment carrier) := by
  unfold increment
  repeat' with_reducible refine .bind_temp ?_ fun _ _ => ?_
  all_goals grind

@[grind ←] theorem getIterator_relates (h : ∀ D, Φ.Follows D iterable) :
    Φ.Follows D (getIterator iterable) :=
  (h D).bind_temp fun _ _ => .bind_temp (asObject_relates (by grind)) fun _ _ =>
    define_relates (by grind)

@[grind ←] theorem iteratorStep_relates (iterator : Carrier) (exhausted : Label) :
    Φ.Follows D (iteratorStep iterator exhausted) := by
  unfold iteratorStep
  repeat' with_reducible first | refine .bind_temp ?_ fun _ _ => ?_ | refine .bind_same ?_ fun _ => ?_
  all_goals grind

@[grind ←] theorem closeIterator_relates (iterator : Carrier) :
    Φ.Follows D (closeIterator iterator) :=
  .bind_temp (loadCarrier_relates _) fun _ _ => .bind_temp (define_relates (by grind)) fun _ _ =>
    pure_same_relates ()

theorem forOfHandler_relates {skipClose : Label} (D : Pairing) :
    Φ.Follows D (forOfHandler iterator done skipClose) :=
  .bind_temp (loadCarrier_relates _) fun _ _ => .bind_same (branchIf_relates (by grind)) fun _ =>
    .bind_same (closeIterator_relates _) fun _ => .bind_same (place_relates _) fun _ => hΦ.bare rfl

@[grind ←] theorem notePendingException_relates (fields : PendingFields) :
    Φ.Follows D (notePendingException fields) :=
  .bind_same (setFlag_relates _ _) fun _ => setFlag_relates _ _

@[grind ←] theorem freshLabels_relates {γ : Type} (l : List γ) : Φ.Follows D (freshLabels l) := by
  induction l with
  | nil => exact pure_same_relates _
  | cons a l ih =>
    exact .bind_same (freshLabel_relates) fun _ => .bind_same ih fun _ => pure_same_relates _

@[grind ←] theorem switchTests_relates {discriminant discriminant' : Temp} {fallback : Option Label}
    {cases : List (SwitchCase × Label)} (hcases : ∀ c ∈ cases, Φ.Resolves c.1.test?)
    (h : (discriminant, discriminant') ∈ D) :
    Φ.Relates D (switchTests discriminant fallback cases) (switchTests discriminant' fallback cases) := by
  induction cases generalizing fallback D with
  | nil => exact pure_same_relates _
  | cons case rest ih =>
    obtain ⟨⟨test, body⟩, label⟩ := case
    have hrest : ∀ c ∈ rest, Φ.Resolves c.1.test? := fun c hc => hcases c (.tail _ hc)
    have htest : Φ.Resolves test := hcases _ (.head _)
    cases test with
    | none => exact ih hrest h
    | some test =>
      refine (lowerExpr_relates test (htest.imp fun _ h => h _ rfl) D).bind_temp fun _ _ => ?_
      refine .bind_temp (asObject_relates (by grind)) fun _ _ => ?_
      refine .bind_temp (define_relates (by grind)) fun _ _ => ?_
      exact .bind_same (branchIf_relates (by grind)) fun _ => ih hrest (by grind)

@[grind ←] theorem declareAll_relates {kind : DeclKind} {declarators : List Declarator}
    (h : Φ.Resolves declarators) : Φ.Follows D (declareAll kind declarators) := by
  induction declarators generalizing D with
  | nil => exact pure_same_relates ()
  | cons d rest ih =>
    have ih := fun D => @ih D (h.imp fun _ h d hd => h d (.tail _ hd))
    have htarget : Φ.Resolves (BoundPattern.mk d.target) := h.imp fun _ h => (h d (.head _)).1
    have hinit : Φ.Resolves d.init := h.imp fun _ h => (h d (.head _)).2
    unfold declareAll
    split
    · rename_i heq
      exact (lowerExpr_relates _ (hinit.imp fun _ h => h _ heq) _).bind_temp fun t t' =>
        .bind_same (bindBound_relates _ _ htarget t t' _ (by grind)) fun _ => ih _
    · rename_i heq
      dsimp only
      split
      · rw [heq] at htarget
        refine .bind_temp (undefined_relates) fun _ _ => .bind_same (initBinding_relates
          (htarget.imp fun d h => ?_) (by grind)) fun _ => ih _
        cases d
        · exact h
        · exact trivial
      · exact ih _
    · exact .bind_same (decline_relates _) fun _ => ih _

@[grind ←] theorem bindTarget_relates (htarget : Φ.Resolves target) (h : (value, value') ∈ D) :
    Φ.Relates D (bindTarget target value) (bindTarget target value') :=
  bindBound_relates _ _ htarget _ _ D h

@[grind ←] theorem functionStatement_relates {binding : BindingId} {ref : FunctionRef}
    (hbinding : Φ.Resolves binding) (href : Φ.Resolves ref) :
    Φ.Follows D (functionStatement binding ref) := by
  unfold functionStatement
  refine get_bind fun s s' h => ?_
  rw [h.hoisted]
  split
  · exact declareFunction_relates hbinding href
  · exact pure_same_relates ()

end Steps

/-! ### Functions -/

@[grind ←] theorem argumentDefault_relates {default : Lower Temp}
    (h : ∀ D, Φ.Follows D default) : Φ.Follows D (argumentDefault index default) := by
  unfold argumentDefault
  repeat' with_reducible first | refine .bind_temp ?_ fun _ _ => ?_ | refine .bind_same ?_ fun _ => ?_
  all_goals grind

@[grind ←] theorem livesInArgument_relates (h : Φ.Resolves pattern) :
    Φ.Follows D (livesInArgument pattern) := by
  unfold livesInArgument
  split
  · refine .bind_same (placement_relates h) fun home => ?_
    split <;> exact pure_same_relates _
  · exact pure_same_relates _

theorem parameter_relates {param : Param} (htarget : Φ.Resolves param.target)
    (hdefault : Φ.Resolves param.default) : Φ.Follows D (parameter index param) := by
  unfold parameter
  split
  · exact decline_relates _
  refine .bind_same (livesInArgument_relates htarget) fun lives => ?_
  split
  · split
    · exact pure_same_relates ()
    · rename_i heq
      exact argumentDefault_relates (lowerExpr_relates _ (hdefault.imp fun _ h => h _ heq))
  refine .bind_temp (hΦ.define ⟨.nil, rfl⟩) fun argument argument' => ?_
  split
  · exact bindPattern_relates _ _ htarget _ _ _ (by grind)
  · rename_i heq
    exact .bind_temp (valueOrDefault_relates (by grind)
      (lowerExpr_relates _ (hdefault.imp fun _ h => h _ heq) _)) fun t t' =>
        bindPattern_relates _ _ htarget t t' _ (by grind)

@[grind ←] theorem parameters_relates (h : Φ.Resolves params) :
    Φ.Follows D (parameters index params) := by
  induction params generalizing index with
  | nil => exact pure_same_relates ()
  | cons param rest ih =>
    exact .bind_same (parameter_relates (h.imp fun _ h => (h param (.head _)).1)
      (h.imp fun _ h => (h param (.head _)).2)) fun _ =>
        ih (h.imp fun _ h p hp => h p (.tail _ hp))

@[grind ←] theorem resumableEntry_relates (h : Φ.Resolves params) :
    Φ.Follows D (resumableEntry params) := by
  unfold resumableEntry
  repeat' with_reducible first | refine .bind_temp ?_ fun _ _ => ?_ | refine .bind_same ?_ fun _ => ?_
  all_goals first
    | exact hΦ.bare rfl
    | grind

@[grind ←] theorem plainEntry_relates (h : Φ.Resolves params) :
    Φ.Follows D (plainEntry params) := by
  unfold plainEntry
  refine read_bind (fun _ _ => rfl) fun ctx => ?_
  split
  · exact .bind_same (hΦ.perform ⟨.nil, rfl⟩) fun _ => parameters_relates h
  · exact parameters_relates h

/-- The entry of a function. -/
def entry (function : Function) : Lower Unit :=
  if function.isResumable then resumableEntry function.params else plainEntry function.params

/-- The code of a function, from its entry to its exit. -/
def functionCode (function : Function) : Lower Unit := do
  entry function
  hoist function.body
  lowerStmts function.body
  returnValue (← undefined)
  placeSharedExit

omit hΦ in
theorem wholeFunction_eq :
    wholeFunction = (do
      let function := (← read).function
      report (.started function.name function.isResumable)
      functionCode function
      let s ← get
      report (.lowered function.name s.code.size s.temps.size)) := by
  unfold wholeFunction functionCode entry
  refine bind_congr fun ctx => bind_congr fun _ => ?_
  split <;> simp only [bind_assoc]

/-- Reports that the function is lowered. -/
def finish (function : Function) : Lower Unit := do
  let s ← get
  report (.lowered function.name s.code.size s.temps.size)

omit hΦ in
/-- The lowering of a function, behind the report of its start. -/
theorem wholeFunction_run (ctx : Context) : wholeFunction ctx {} =
    (functionCode ctx.function >>= fun _ => finish ctx.function) ctx
      { events := #[.started ctx.function.name ctx.function.isResumable] } := by
  rw [wholeFunction_eq, bind_run (m := read) rfl]
  rfl

theorem entry_relates {function : Function} (h : Φ.Resolves function) :
    Φ.Follows D (entry function) := by
  have hparams : Φ.Resolves function.params := h.imp fun _ h => h.2.1
  unfold entry
  split
  · exact resumableEntry_relates hparams
  · exact plainEntry_relates hparams

end

end ScriptLowering.Lower
