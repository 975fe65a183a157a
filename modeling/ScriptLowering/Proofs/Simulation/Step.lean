import ScriptLowering.Proofs.Simulation

/-!
# Single steps side by side

One lemma for each step of the lowering that is no recursion over the source: given temps that are
paired, it follows every lawful simulation. Most steps are sequences of smaller ones, so their
proofs take both sequences apart at once and leave it to `grind` to look up the lemma of each part.
-/

namespace ScriptLowering.Lower

open Simulation

variable {args : List Argument} {before before' : Option Temp} {callee : Expr} {id : BindingId}
  {name : String} {operand operand' : Lower Temp} {receiver receiver' : Temp}
  {sources sources' : List ScopeSource} {storage : Storage} {t t' : Temp}
  {target target' : Target} {β : Type}

variable {Φ : Simulation} {D : Pairing}

attribute [local grind =] Operation.uses Operation.withUses Effect.uses Effect.withUses
  Operation.linked_iff Effect.linked_iff List.headD_cons List.tail_cons

/-! ### Halting and looking around -/

section Basic

variable [hΦ : Φ.Plain]

@[grind ←] theorem decline_relates {α : Type} [Linkable α] (reason : Decline) :
    Φ.Relates D (decline reason : Lower α) (decline reason) :=
  fun _ _ _ _ _ _ hs _ => .error (hΦ.declined reason hs)

/-- A look-up, if it finds something where it has to. -/
theorem require_bind {γ β : Type} [Linkable β] {o : Option γ} {k k' : γ → Lower β}
    (h : Φ.Always fun _ => ∃ a, o = some a) (hk : ∀ a, o = some a → Φ.Relates D (k a) (k' a)) :
    Φ.Relates D (require o >>= k) (require o >>= k') := by
  cases o with
  | none =>
    have htree : Φ.tree? = none := Option.eq_none_iff_forall_ne_some.2 fun tree htree => by
      obtain ⟨a, ha⟩ := h tree htree
      cases ha
    exact fun _ _ _ _ _ _ hs _ => .error (hΦ.dangling htree hs)
  | some a => exact hk a rfl

/-- What does not depend on the bound of the fixed arity sees the same context on both sides. -/
theorem readTree_bind [Linkable β] {k k' : Context → Lower β}
    (harity : ∀ (ctx : Context) (n : Nat), k' (ctx.withArity n) = k' ctx)
    (hk : ∀ ctx, Φ.Always (ctx.tree = ·) → Φ.Relates D (k ctx) (k' ctx)) :
    Φ.Relates D (read >>= k) (read >>= k') := by
  intro ctx ctx' w s s' hctx hs hD
  obtain ⟨n, rfl⟩ := Φ.arity hctx
  have hends := hk ctx (hΦ.tree hctx) hctx hs hD
  rwa [← harity ctx n] at hends

/-- A change of the tables that has nothing to do with temps. -/
theorem modifyGet_relates {γ : Type} {f : Session → γ × Session}
    (hkeeps : ∀ s : Session, s.KeepsCode (f s).2)
    (hsame : ∀ s s' : Session, s.SameTables s' →
      (f s).1 = (f s').1 ∧ (f s).2.SameTables (f s').2) :
    @Relates γ sameLink Φ D (modifyGet f) (modifyGet f) := by
  intro ctx ctx' w s s' _ hs _
  obtain ⟨heq, htables⟩ := hsame s s' (hΦ.tables hs)
  obtain ⟨w', hleads, hs'⟩ := hΦ.aside ctx hs (hkeeps s) (hkeeps s') htables
  exact @Ends.ok γ sameLink Φ ctx w _ _ _ _ w' [] hleads hs' (holds_nil w') heq

theorem modify_relates {f : Session → Session} (hkeeps : ∀ s : Session, s.KeepsCode (f s))
    (hsame : ∀ s s' : Session, s.SameTables s' → (f s).SameTables (f s')) :
    Φ.Relates D (modify f : Lower Unit) (modify f) :=
  modifyGet_relates (f := fun s => ((), f s)) hkeeps fun s s' h => ⟨rfl, hsame s s' h⟩

/-- The sessions have the same tables. -/
theorem get_bind [Linkable β] {k k' : Session → Lower β}
    (hk : ∀ s s' : Session, s.SameTables s' → Φ.Relates D (k s) (k' s')) :
    Φ.Relates D (get >>= k) (get >>= k') :=
  fun _ _ _ s s' hctx hs hD => hk s s' (hΦ.tables hs) hctx hs hD

@[grind ←] theorem forbidSuspend_relates (exprs : List Expr) :
    Φ.Follows D (forbidSuspend exprs) := by
  refine read_bind (fun _ _ => rfl) fun ctx => ?_
  split
  · exact decline_relates _
  · exact pure_relates rfl

theorem requireScope_bind [Linkable β] {id : ScopeId} {k k' : Scope → Lower β}
    (h : Φ.Resolves id) (hk : ∀ data, Φ.Relates D (k data) (k' data)) :
    Φ.Relates D (requireScope id >>= k) (requireScope id >>= k') := by
  unfold requireScope
  rw [bind_assoc, bind_assoc]
  refine readTree_bind (fun _ _ => rfl) fun ctx hctx => require_bind (fun tree htree => ?_)
    fun data _ => hk data
  rw [hctx tree htree]
  exact h.always tree htree

theorem requireScope_relates {id : ScopeId} (h : Φ.Resolves id) : Φ.Follows D (requireScope id) := by
  simpa only [bind_pure] using requireScope_bind h fun data => pure_relates (Φ := Φ) (D := D) (a := data) rfl

theorem requireBinding_bind [Linkable β] {k k' : Binding → Lower β}
    (h : Φ.Always fun tree => ∃ b, tree.binding? id = some b)
    (hk : ∀ b, Φ.Always (·.binding? id = some b) → Φ.Relates D (k b) (k' b)) :
    Φ.Relates D (requireBinding id >>= k) (requireBinding id >>= k') := by
  unfold requireBinding
  rw [bind_assoc, bind_assoc]
  refine readTree_bind (fun _ _ => rfl) fun ctx hctx => require_bind (fun tree htree => ?_)
    fun b hb => hk b fun tree htree => ?_
  · rw [hctx tree htree]
    exact h tree htree
  · rw [← hctx tree htree]
    exact hb

/-- The scope of a binding that is there. -/
theorem resolves_scope {b : Binding} (h : Φ.Always (·.binding? id = some b)) :
    Φ.Resolves b.scope :=
  resolves_of_always fun tree htree => (hΦ.closed tree htree).declaring (h tree htree)

/-! ### Values, slots and carriers -/

@[grind ←] theorem define_relates {op op' : Operation} (h : op.Linked D op') :
    Φ.Relates D (define storage op) (define storage op') :=
  hΦ.define h

@[grind ←] theorem perform_relates {effect effect' : Effect} (h : effect.Linked D effect') :
    Φ.Relates D (perform effect) (perform effect') :=
  hΦ.perform h

@[grind ←] theorem storageOf_relates (h : (t, t') ∈ D) :
    Φ.Relates D (storageOf t) (storageOf t') :=
  fun ctx _ w _ _ _ hs hD => .ok w [] (Φ.refl ctx w) hs (holds_nil w)
    (hΦ.storage hs (hD (t, t') h)).symm

@[grind ←] theorem freshLabel_relates : Φ.Follows D freshLabel :=
  modifyGet_relates (fun _ => ⟨rfl, rfl, rfl, rfl, rfl, rfl⟩) fun s s' h =>
    ⟨by rw [h.labelCount], ⟨h.slots, by rw [h.labelCount], h.stateFields, h.epilogue, h.placements,
      h.hoisted, h.superCalled, h.carrierCount⟩⟩

@[grind ←] theorem place_relates (label : Label) : Φ.Follows D (place label) :=
  hΦ.bare rfl

@[grind ←] theorem branch_relates (target : Label) : Φ.Follows D (branch target) :=
  hΦ.bare rfl

@[grind ←] theorem branchIf_relates {expected : Bool} {target : Label}
    (h : (t, t') ∈ D) : Φ.Relates D (branchIf expected t target) (branchIf expected t' target) :=
  hΦ.branchIf h

@[grind ←] theorem number_relates (value : Binary64) : Φ.Follows D (number value) :=
  hΦ.define ⟨.nil, rfl⟩

@[grind ←] theorem bool_relates (value : Bool) : Φ.Follows D (bool value) :=
  hΦ.define ⟨.nil, rfl⟩

@[grind ←] theorem string_relates (value : String) : Φ.Follows D (string value) :=
  hΦ.define ⟨.nil, rfl⟩

@[grind ←] theorem null_relates : Φ.Follows D null :=
  hΦ.define ⟨.nil, rfl⟩

@[grind ←] theorem undefined_relates : Φ.Follows D undefined :=
  hΦ.define ⟨.nil, rfl⟩

omit hΦ in
@[grind ←] theorem pure_same_relates {γ : Type} (a : γ) :
    @Relates γ sameLink Φ D (pure a) (pure a) :=
  @pure_relates Φ D γ sameLink a a rfl

omit hΦ in
@[grind ←] theorem pure_temp_relates (h : (t, t') ∈ D) :
    Φ.Relates D (pure t : Lower Temp) (pure t') :=
  pure_relates h

@[grind ←] theorem asObject_relates (h : (t, t') ∈ D) :
    Φ.Relates D (asObject t) (asObject t') := by
  refine .bind_same (storageOf_relates h) fun storage => ?_
  split <;> grind

/-- One step after another one whose result is put into an object-shaped form. -/
theorem bind_object [Linkable β] {m m' : Lower Temp} {k k' : Temp → Lower β}
    (hm : Φ.Relates D m m') (hk : ∀ t t', Φ.Relates ((t, t') :: D) (k t) (k' t')) :
    Φ.Relates D (m >>= fun t => asObject t >>= k) (m' >>= fun t => asObject t >>= k') :=
  hm.bind_temp fun _ _ => .bind_temp (asObject_relates (by grind)) fun t t' =>
    (hk t t').mono (List.cons_subset_cons _ (List.subset_cons_self _ _))

@[grind ←] theorem asNumber_relates (h : (t, t') ∈ D) :
    Φ.Relates D (asNumber t) (asNumber t') :=
  hΦ.asNumber h

@[grind ←] theorem asBoolean_relates (h : (t, t') ∈ D) :
    Φ.Relates D (asBoolean t) (asBoolean t') := by
  refine .bind_same (storageOf_relates h) fun storage => ?_
  split <;> grind

@[grind ←] theorem asText_relates (h : (t, t') ∈ D) :
    Φ.Relates D (asText t) (asText t') := by
  refine .bind_same (storageOf_relates h) fun storage => ?_
  split <;> grind

@[grind ←] theorem coerceTo_relates (h : (t, t') ∈ D) :
    Φ.Relates D (coerceTo storage t) (coerceTo storage t') := by
  unfold coerceTo
  repeat' split
  all_goals grind

@[grind ←] theorem freshSlot_relates (info : SlotInfo) : Φ.Follows D (freshSlot info) :=
  modifyGet_relates (fun _ => ⟨rfl, rfl, rfl, rfl, rfl, rfl⟩) fun s s' h =>
    ⟨by rw [h.slots], ⟨by rw [h.slots], h.labelCount, h.stateFields, h.epilogue, h.placements,
      h.hoisted, h.superCalled, h.carrierCount⟩⟩

@[grind ←] theorem slotStorage_relates (slot : Slot) : Φ.Follows D (slotStorage slot) :=
  get_bind fun s s' h => pure_relates (by rw [h.slots]; rfl)

@[grind ←] theorem storeSlot_relates {slot : Slot} (h : (t, t') ∈ D) :
    Φ.Relates D (storeSlot slot t) (storeSlot slot t') := by
  refine .bind_same (slotStorage_relates slot) fun storage => ?_
  refine .bind_temp (coerceTo_relates h) fun t t' => .bind_same (by grind) fun _ => ?_
  refine modify_relates (fun _ => ⟨rfl, rfl, rfl, rfl, rfl, rfl⟩) fun s s' h => ?_
  exact ⟨by rw [h.slots], h.labelCount, h.stateFields, h.epilogue, h.placements, h.hoisted,
    h.superCalled, h.carrierCount⟩

@[grind ←] theorem loadSlot_relates (slot : Slot) : Φ.Follows D (loadSlot slot) :=
  .bind_same (slotStorage_relates slot) fun _ => hΦ.define ⟨.nil, rfl⟩

omit hΦ in
theorem sameTables_stateField {s s' : Session} (h : s.SameTables s') (name : String) :
    (if s.stateFields.contains name then s
      else { s with stateFields := s.stateFields.push name }).SameTables
    (if s'.stateFields.contains name then s'
      else { s' with stateFields := s'.stateFields.push name }) := by
  have hfields : s'.stateFields = s.stateFields := h.stateFields
  by_cases hin : s.stateFields.contains name = true
  · rwa [if_pos hin, if_pos (hfields ▸ hin)]
  · rw [if_neg hin, if_neg (hfields ▸ hin)]
    exact ⟨h.slots, h.labelCount, congrArg (·.push name) hfields, h.epilogue, h.placements, h.hoisted,
      h.superCalled, h.carrierCount⟩

@[grind ←] theorem stateField_relates (name : String) : Φ.Follows D (stateField name) := by
  refine .bind_same (modify_relates (fun s => ?_) fun s s' h => sameTables_stateField h name)
    fun _ => read_bind (fun _ _ => rfl) fun _ => pure_relates rfl
  split <;> exact ⟨rfl, rfl, rfl, rfl, rfl, rfl⟩

@[grind ←] theorem loadState_relates (name : String) (storage : Storage) :
    Φ.Follows D (loadState name storage) :=
  .bind_same (stateField_relates name) fun _ => hΦ.define ⟨.nil, rfl⟩

@[grind ←] theorem storeState_relates (h : (t, t') ∈ D) :
    Φ.Relates D (storeState name t) (storeState name t') :=
  .bind_same (stateField_relates name) fun _ => perform_relates (by grind)

@[grind ←] theorem setFlag_relates (name : String) (value : Bool) :
    Φ.Follows D (setFlag name value) :=
  .bind_temp (bool_relates value) fun _ _ => storeState_relates (by grind)

@[grind ←] theorem clearState_relates (name : String) : Φ.Follows D (clearState name) :=
  .bind_temp (null_relates) fun _ _ => storeState_relates (by grind)

@[grind ←] theorem joinCarrier_relates (hint : String) (storage : Storage) :
    Φ.Follows D (joinCarrier hint storage) :=
  .bind_same (freshSlot_relates _) fun _ => pure_relates rfl

@[grind ←] theorem durableCarrier_relates (hint : String) (storage : Storage) :
    Φ.Follows D (durableCarrier hint storage) := by
  refine read_bind (fun _ _ => rfl) fun ctx => ?_
  split
  · exact joinCarrier_relates hint storage
  · refine .bind_same (modify_relates (fun _ => ⟨rfl, rfl, rfl, rfl, rfl, rfl⟩) fun s s' h => ?_)
      fun _ => get_bind fun s s' h => ?_
    · exact ⟨h.slots, h.labelCount, h.stateFields, h.epilogue, h.placements, h.hoisted, h.superCalled,
        by rw [h.carrierCount]⟩
    · rw [h.carrierCount]
      exact .bind_same (stateField_relates _) fun _ => pure_relates rfl

@[grind ←] theorem storeCarrier_relates {carrier : Carrier} (h : (t, t') ∈ D) :
    Φ.Relates D (storeCarrier carrier t) (storeCarrier carrier t') := by
  unfold storeCarrier
  split
  · exact storeSlot_relates h
  · exact .bind_temp (coerceTo_relates h) fun _ _ => perform_relates (by grind)

@[grind ←] theorem loadCarrier_relates (carrier : Carrier) : Φ.Follows D (loadCarrier carrier) := by
  unfold loadCarrier
  split
  · exact loadSlot_relates _
  · exact hΦ.define ⟨.nil, rfl⟩

@[grind ←] theorem valueOrDefault_relates {default default' : Lower Temp}
    (h : (t, t') ∈ D) (hdefault : Φ.Relates D default default') :
    Φ.Relates D (valueOrDefault t default) (valueOrDefault t' default') := by
  unfold valueOrDefault
  repeat' with_reducible first | refine .bind_temp ?_ fun _ _ => ?_ | refine .bind_same ?_ fun _ => ?_
  all_goals grind

/-! ### Exits -/

@[grind ←] theorem jumpAcross_relates (crossed : List Frame) (target : Label) :
    Φ.Follows D (jumpAcross crossed target) := by
  unfold jumpAcross
  split
  · exact decline_relates _
  all_goals exact hΦ.bare rfl

@[grind ←] theorem jumpTo_relates (isTarget : Frame → Bool) (label? : Frame → Option Label)
    (missing : Decline) : Φ.Follows D (jumpTo isTarget label? missing) := by
  refine read_bind (fun _ _ => rfl) fun ctx => ?_
  dsimp only
  split <;> grind

@[grind ←] theorem breakTo_relates (name : Option String) : Φ.Follows D (breakTo name) :=
  jumpTo_relates ..

@[grind ←] theorem continueTo_relates (name : Option String) : Φ.Follows D (continueTo name) :=
  jumpTo_relates ..

@[grind ←] theorem sharedExit_relates : Φ.Follows D sharedExit := by
  refine get_bind fun s s' h => ?_
  rw [h.epilogue]
  split
  · exact pure_relates rfl
  · refine .bind_same (freshLabel_relates) fun _ => .bind_same (freshSlot_relates _) fun _ => ?_
    refine .bind_same (modify_relates (fun _ => ⟨rfl, rfl, rfl, rfl, rfl, rfl⟩) fun s s' h => ?_)
      fun _ => pure_relates rfl
    exact ⟨h.slots, h.labelCount, h.stateFields, rfl, h.placements, h.hoisted, h.superCalled,
      h.carrierCount⟩

@[grind ←] theorem returnThrough_relates {fields : PendingFields} {route : FinallyRoute}
    (h : (t, t') ∈ D) : Φ.Relates D (returnThrough fields route t) (returnThrough fields route t') := by
  unfold returnThrough
  repeat' with_reducible refine .bind_same ?_ fun _ => ?_
  all_goals grind

@[grind ←] theorem returnValue_relates (h : (t, t') ∈ D) :
    Φ.Relates D (returnValue t) (returnValue t') := by
  refine .bind_temp (asObject_relates h) fun u u' => read_bind (fun _ _ => rfl) fun ctx => ?_
  dsimp only
  split
  · split
    · exact decline_relates _
    split
    · exact decline_relates _
    refine .bind_same (sharedExit_relates) fun e => .bind_same (by grind) fun _ => hΦ.bare rfl
  · split
    · exact returnThrough_relates (by grind)
    · exact hΦ.ret (by grind)

@[grind ←] theorem placeSharedExit_relates : Φ.Follows D placeSharedExit := by
  refine get_bind fun s s' h => ?_
  rw [h.epilogue]
  split
  · exact pure_relates rfl
  · refine .bind_same (place_relates _) fun _ => .bind_temp (loadSlot_relates _) fun _ _ => ?_
    exact hΦ.ret (by grind)

@[grind ←] theorem throwValue_relates (h : (t, t') ∈ D) :
    Φ.Relates D (throwValue t) (throwValue t') :=
  hΦ.throwValue h

@[grind ←] theorem throwBuiltInError_relates (kind : ErrorKind) (message : String) :
    Φ.Follows D (throwBuiltInError kind message) :=
  .bind_temp (hΦ.define ⟨.nil, rfl⟩) fun _ _ => throwValue_relates (by grind)

/-! ### Bindings and scope chains -/

@[grind ←] theorem capturedField_relates {b : Binding} (h : Φ.Resolves b.scope) :
    Φ.Follows D (capturedField b) :=
  requireScope_bind h fun _ => pure_relates rfl

@[grind ←] theorem choosePlacement_relates (h : Φ.Resolves id) :
    Φ.Follows D (choosePlacement id) := by
  refine requireBinding_bind h.binding? fun b hb => readTree_bind (fun _ _ => rfl) fun ctx hctx => ?_
  have hscope := resolves_scope hb
  refine require_bind (fun tree htree => ?_) fun owner _ => ?_
  · rw [hctx tree htree]
    exact (hΦ.closed tree htree).enclosingFunction? (hscope.always tree htree)
  dsimp only
  repeat' first
    | with_reducible refine .bind_same ?_ fun _ => ?_
    | split
  all_goals grind

@[grind ←] theorem placement_relates (hid : Φ.Resolves id) :
    Φ.Follows D (placement id) := by
  refine get_bind fun s s' h => ?_
  rw [h.placements]
  split
  · exact pure_relates rfl
  · refine .bind_same (choosePlacement_relates hid) fun chosen => ?_
    refine .bind_same (modify_relates (fun _ => ⟨rfl, rfl, rfl, rfl, rfl, rfl⟩) fun s s' h => ?_)
      fun _ => pure_relates rfl
    exact ⟨h.slots, h.labelCount, h.stateFields, h.epilogue, by rw [h.placements], h.hoisted,
      h.superCalled, h.carrierCount⟩

@[grind ←] theorem blockObject_relates (scope : ScopeId) : Φ.Follows D (blockObject scope) := by
  refine read_bind (fun _ _ => rfl) fun ctx => ?_
  split <;> grind

@[grind ←] theorem loadBinding_relates (hid : Φ.Resolves id) :
    Φ.Follows D (loadBinding id) := by
  refine .bind_same (placement_relates hid) fun home => ?_
  split
  case h_2 => exact loadSlot_relates _
  case h_4 =>
    exact .bind_temp (blockObject_relates _) fun _ _ => define_relates (by grind)
  all_goals exact hΦ.define ⟨.nil, rfl⟩

@[grind ←] theorem storePlacement_relates {home : Placement} (h : (t, t') ∈ D) :
    Φ.Relates D (storePlacement home t) (storePlacement home t') := by
  unfold storePlacement
  repeat' first
    | with_reducible refine .bind_temp ?_ fun _ _ => ?_
    | split
  all_goals grind

@[grind ←] theorem initBinding_relates (hid : Φ.Resolves id)
    (h : (t, t') ∈ D) : Φ.Relates D (initBinding id t) (initBinding id t') :=
  requireBinding_bind hid.binding? fun _ _ => .bind_same (placement_relates hid) fun _ =>
    storePlacement_relates h

@[grind ←] theorem assignBinding_relates (hid : Φ.Resolves id)
    (h : (t, t') ∈ D) : Φ.Relates D (assignBinding id t) (assignBinding id t') := by
  refine requireBinding_bind hid.binding? fun b _ => ?_
  split
  · exact throwBuiltInError_relates ..
  · exact .bind_same (placement_relates hid) fun _ => storePlacement_relates h

@[grind ←] theorem createBlockObject_relates (scope : Scope) (carrier : Carrier) :
    Φ.Follows D (createBlockObject scope carrier) :=
  .bind_temp (hΦ.define ⟨.nil, rfl⟩) fun _ _ => .bind_same (storeCarrier_relates (by grind))
    fun _ => pure_temp_relates (by grind)

theorem copyCaptured_relates {scope : Scope} {previous previous' fresh fresh' : Temp} (hid : Φ.Always fun tree => ∃ b, tree.binding? id = some b)
    (h : (previous, previous') ∈ D) (h' : (fresh, fresh') ∈ D) :
    Φ.Relates D (copyCaptured scope previous fresh id) (copyCaptured scope previous' fresh' id) :=
  requireBinding_bind hid fun _ _ => .bind_temp (define_relates (by grind))
    fun _ _ => perform_relates (by grind)

omit hΦ in
/-- Steps for all elements of a list, one after the other. -/
theorem forM_relates {γ : Type} {f f' : γ → Lower Unit} (l : List γ)
    (h : ∀ a ∈ l, Φ.Relates D (f a) (f' a)) : Φ.Relates D (l.forM f) (l.forM f') := by
  induction l with
  | nil => exact pure_same_relates ()
  | cons a l ih =>
    exact .bind_same (h a (.head _)) fun _ => ih fun b hb => h b (List.mem_cons_of_mem a hb)

omit hΦ in
/-- A captured binding is there. -/
theorem exists_of_isCaptured {ctx : Context} (hctx : Φ.Always (ctx.tree = ·))
    (h : ctx.tree.isCaptured id) : Φ.Always fun tree => ∃ b, tree.binding? id = some b := by
  intro tree htree
  rw [hctx tree htree] at h
  exact (Option.any_eq_true _ _).1 h |>.imp fun _ hb => hb.1

@[grind ←] theorem renewBlock_relates {scope : Option ScopeId} (hscope : Φ.Resolves scope) :
    Φ.Follows D (renewBlock scope) := by
  unfold renewBlock
  split
  · exact pure_same_relates ()
  refine read_bind (fun _ _ => rfl) fun ctx => ?_
  split
  · exact pure_same_relates ()
  refine requireScope_bind (hscope.imp fun _ h => h _ rfl) fun data => ?_
  refine .bind_temp (loadCarrier_relates _) fun _ _ => ?_
  refine .bind_temp (createBlockObject_relates _ _) fun _ _ =>
    readTree_bind (fun _ _ => rfl) fun ctx hctx => ?_
  refine forM_relates _ fun id hid => copyCaptured_relates ?_ (by grind) (by grind)
  exact exists_of_isCaptured hctx (List.mem_filter.1 hid).2

@[grind ←] theorem chainSource?_relates (scope : ScopeId) : Φ.Follows D (chainSource? scope) := by
  refine read_bind (fun _ _ => rfl) fun ctx => ?_
  split
  · exact pure_relates trivial
  split
  · exact .bind_temp (loadCarrier_relates _) fun _ _ => pure_relates (.head _)
  · refine pure_relates ?_
    cases ctx.chain.idxOf? scope with
    | none => trivial
    | some position => exact rfl

@[grind ←] theorem chainSource_relates {scope : ScopeId} (hscope : Φ.Resolves scope) :
    Φ.Follows D (chainSource scope) := by
  refine .bind (chainSource?_relates scope) fun E source source' h => ?_
  cases source <;> cases source' <;> dsimp only
  case some.some a a' =>
    exact pure_relates (Linkable.mono (α := ScopeSource) h (List.subset_append_left _ _))
  case none.none =>
    exact requireScope_bind hscope fun _ => decline_relates _
  all_goals exact h.elim

omit hΦ in
theorem linked_buildScopes (h : Linked D sources sources') :
    (Operation.buildScopes sources).Linked D (.buildScopes sources') := by
  suffices hall : Linked D (sources.filterMap ScopeSource.temp?) (sources'.filterMap ScopeSource.temp?) ∧
      ScopeSource.withTemps sources (sources'.filterMap ScopeSource.temp?) = sources' from
    ⟨hall.1, congrArg Operation.buildScopes hall.2⟩
  induction h with
  | nil => exact ⟨.nil, rfl⟩
  | @cons source source' _ _ hsource _ ih =>
    cases source <;> cases source'
    case leaf.leaf => exact ⟨ih.1, congrArg (ScopeSource.leaf :: ·) ih.2⟩
    case received.received index index' =>
      obtain rfl : index = index' := hsource
      exact ⟨ih.1, congrArg (ScopeSource.received index :: ·) ih.2⟩
    case temp.temp t t' => exact ⟨.cons hsource ih.1, congrArg (ScopeSource.temp t' :: ·) ih.2⟩
    all_goals exact hsource.elim

omit hΦ in
theorem linked_newObject {members members' : List (String × Temp)} (h : Linked D members members') :
    (Operation.newObject members).Linked D (.newObject members') := by
  have hnames : members.map (·.1) = members'.map (·.1) :=
    List.forall₂_eq_eq_eq ▸ List.forall₂_map_left_iff.2 (List.forall₂_map_right_iff.2
      (List.Forall₂.imp (fun _ _ hp => hp.1) h))
  refine ⟨List.forall₂_map_left_iff.2 (List.forall₂_map_right_iff.2
    (List.Forall₂.imp (fun _ _ hp => hp.2) h)), congrArg Operation.newObject ?_⟩
  exact (List.zip_of_prod hnames.symm rfl).symm

@[grind ←] theorem buildScopes_relates
    (h : Linked D sources sources') : Φ.Relates D (buildScopes sources) (buildScopes sources') :=
  hΦ.define (linked_buildScopes h)

omit hΦ in
/-- Results of steps for all elements of a list. -/
theorem mapM_relates {γ β : Type} [Linkable β] [Linkable (List β)] {f : γ → Lower β} (l : List γ)
    (hnil : ∀ E, Linked E ([] : List β) [])
    (hcons : ∀ E (b b' : β) (bs bs' : List β), Linked E b b' → Linked E bs bs' →
      Linked E (b :: bs) (b' :: bs'))
    (h : ∀ a ∈ l, ∀ D, Φ.Follows D (f a)) : Φ.Follows D (l.mapM f) := by
  induction l generalizing D with
  | nil => exact pure_relates (hnil D)
  | cons a l ih =>
    rw [List.mapM_cons]
    refine .bind (h a (.head _) D) fun E b b' hb =>
      .bind (ih fun c hc => h c (List.mem_cons_of_mem a hc)) fun F bs bs' hbs =>
        pure_relates (hcons _ _ _ _ _ ?_ ?_)
    · exact Linkable.mono hb (List.subset_append_of_subset_right _ (List.subset_append_left _ _))
    · exact Linkable.mono hbs (List.subset_append_left _ _)

@[grind ←] theorem calleeScopes_relates {callee : ScopeId} (hcallee : Φ.Resolves callee) :
    Φ.Follows D (calleeScopes callee) := by
  refine readTree_bind (fun _ _ => rfl) fun ctx hctx => ?_
  have hfound : Φ.Always fun tree => ∃ layout, ctx.tree.chainLayout? callee = some layout ∧
      ∀ scope ∈ layout, tree.HasScope scope := fun tree htree => by
    rw [hctx tree htree]
    exact (hΦ.closed tree htree).chainLayout? (hcallee.always tree htree)
  refine require_bind (hfound.imp fun _ ⟨layout, hlayout, _⟩ => ⟨layout, hlayout⟩) fun layout hlayout => ?_
  have hscopes : ∀ scope ∈ layout, Φ.Resolves scope := fun scope hscope =>
      resolves_of_always fun tree htree => by
    obtain ⟨layout', hlayout', hall⟩ := hfound tree htree
    obtain rfl := Option.some.inj (hlayout.symm.trans hlayout')
    exact hall scope hscope
  split
  · refine .bind (chainSource?_relates _) fun E source source' h => buildScopes_relates ?_
    cases source <;> cases source'
    case some.some a a' =>
      exact .cons (Linkable.mono (α := ScopeSource) h (List.subset_append_left _ _)) .nil
    case none.none => exact .nil
    all_goals exact h.elim
  · refine .bind (mapM_relates _ (fun _ => List.Forall₂.nil) (fun _ _ _ _ _ => List.Forall₂.cons) fun scope hscope _ =>
      chainSource_relates (hscopes scope hscope)) fun E sources sources' h => buildScopes_relates ?_
    exact Linkable.mono (α := List ScopeSource) h (List.subset_append_left _ _)

@[grind ←] theorem currentScopes_relates : Φ.Follows D currentScopes := by
  refine read_bind (fun _ _ => rfl) fun ctx => ?_
  refine .bind (mapM_relates _ (fun _ => List.Forall₂.nil) (fun _ _ _ _ _ => List.Forall₂.cons) fun p _ _ =>
    loadCarrier_relates p.2) fun E blocks blocks' h => buildScopes_relates ?_
  have hblocks : Linked (E ++ D) (blocks.map ScopeSource.temp) (blocks'.map ScopeSource.temp) :=
    List.forall₂_map_left_iff.2 (List.forall₂_map_right_iff.2
      (List.Forall₂.imp (fun _ _ ht => List.mem_append_left D ht) h))
  refine List.rel_append (List.forall₂_same.2 fun source hsource => ?_) hblocks
  cases source with
  | leaf => trivial
  | received => exact rfl
  | temp t =>
    rw [List.mem_append, List.mem_map] at hsource
    grind

@[grind ←] theorem closure_relates {ref : FunctionRef} (href : Φ.Resolves ref) :
    Φ.Follows D (closure ref) :=
  .bind_temp (calleeScopes_relates href) fun _ _ => define_relates (by grind)

@[grind ←] theorem declareFunction_relates {binding : BindingId} {ref : FunctionRef}
    (hbinding : Φ.Resolves binding) (href : Φ.Resolves ref) :
    Φ.Follows D (declareFunction binding ref) :=
  .bind_temp (closure_relates href) fun _ _ => initBinding_relates hbinding (by grind)

theorem hoist_relates {stmts : List Stmt} (hstmts : Φ.Resolves stmts) :
    Φ.Follows D (hoist stmts) := by
  induction stmts with
  | nil => exact pure_same_relates ()
  | cons stmt rest ih =>
    have ih := ih (hstmts.imp fun _ h => h.2)
    cases stmt with
    | functionDecl binding ref =>
      refine .bind_same (declareFunction_relates (hstmts.imp fun _ h => h.1.1)
        (hstmts.imp fun _ h => h.1.2)) fun _ => ?_
      refine .bind_same (modify_relates (fun _ => ⟨rfl, rfl, rfl, rfl, rfl, rfl⟩) fun s s' h => ?_)
        fun _ => ih
      exact ⟨h.slots, h.labelCount, h.stateFields, h.epilogue, h.placements, by rw [h.hoisted],
        h.superCalled, h.carrierCount⟩
    | _ => exact ih

/-! ### Members and items -/

@[grind ←] theorem declaredField?_relates (h : (t, t') ∈ D) :
    Φ.Relates D (declaredField? t name) (declaredField? t' name) := by
  refine .bind_same (storageOf_relates h) fun storage => ?_
  split
  · exact pure_same_relates none
  · exact read_bind (fun _ _ => rfl) fun _ => pure_same_relates _

variable {object object' key key' value value' left left' right right' : Temp}

/-- Elements, properties and sums are also taken of temps from long before, which a search that has
to look at the operands first would not find. -/
@[grind ←] theorem getElement_relates (h : (object, object') ∈ D) (h' : (key, key') ∈ D) :
    Φ.Relates D (define storage (.getElement object key)) (define storage (.getElement object' key')) :=
  hΦ.define ⟨linked_cons.2 ⟨h, linked_cons.2 ⟨h', .nil⟩⟩, rfl⟩

@[grind ←] theorem readProperty_relates (h : (object, object') ∈ D) :
    Φ.Relates D (define storage (.getProperty object name)) (define storage (.getProperty object' name)) :=
  hΦ.define ⟨linked_cons.2 ⟨h, .nil⟩, rfl⟩

@[grind ←] theorem numeric_relates {op : NumericOp} (h : (left, left') ∈ D)
    (h' : (right, right') ∈ D) :
    Φ.Relates D (define storage (.numeric op left right)) (define storage (.numeric op left' right')) :=
  hΦ.define ⟨linked_cons.2 ⟨h, linked_cons.2 ⟨h', .nil⟩⟩, rfl⟩

@[grind ←] theorem getProperty_relates (h : (object, object') ∈ D) :
    Φ.Relates D (getProperty object name) (getProperty object' name) := by
  unfold getProperty
  repeat' first
    | with_reducible refine .bind_temp ?_ fun _ _ => ?_
    | with_reducible refine .bind_same ?_ fun _ => ?_
    | split
  all_goals grind

@[grind ←] theorem setProperty_relates (h : (object, object') ∈ D) (h' : (value, value') ∈ D) :
    Φ.Relates D (setProperty object name value) (setProperty object' name value') := by
  unfold setProperty
  repeat' first
    | with_reducible refine .bind_temp ?_ fun _ _ => ?_
    | with_reducible refine .bind_same ?_ fun _ => ?_
    | split
  all_goals grind

@[grind ←] theorem getItem_relates (h : (object, object') ∈ D) (h' : (key, key') ∈ D) :
    Φ.Relates D (getItem object key) (getItem object' key') := by
  unfold getItem
  repeat' first
    | with_reducible refine .bind_temp ?_ fun _ _ => ?_
    | with_reducible refine .bind_same ?_ fun _ => ?_
    | split
  all_goals grind

@[grind ←] theorem setItem_relates (h : (object, object') ∈ D) (h' : (key, key') ∈ D)
    (h'' : (value, value') ∈ D) :
    Φ.Relates D (setItem object key value) (setItem object' key' value') := by
  unfold setItem
  repeat' with_reducible refine .bind_temp ?_ fun _ _ => ?_
  all_goals grind

@[grind ←] theorem optionally_relates {access access' : Lower Temp} (h : (object, object') ∈ D)
    (haccess : Φ.Relates D access access') :
    Φ.Relates D (optionally object access) (optionally object' access') := by
  unfold optionally
  repeat' with_reducible first | refine .bind_temp ?_ fun _ _ => ?_ | refine .bind_same ?_ fun _ => ?_
  all_goals grind

@[grind ←] theorem readTarget_relates (htarget : Φ.Resolves target)
    (h : Linked D target target') : Φ.Relates D (readTarget target) (readTarget target') := by
  cases target <;> cases target'
  case binding.binding id id' =>
    obtain rfl : id = id' := h
    exact loadBinding_relates (htarget.imp fun _ h => h)
  case property.property object name object' name' =>
    obtain ⟨h, rfl⟩ := h
    exact getProperty_relates h
  case item.item => exact getItem_relates h.1 h.2
  all_goals exact h.elim

@[grind ←] theorem writeTarget_relates (htarget : Φ.Resolves target)
    (h : Linked D target target') (h' : (value, value') ∈ D) :
    Φ.Relates D (writeTarget target value) (writeTarget target' value') := by
  cases target <;> cases target'
  case binding.binding id id' =>
    obtain rfl : id = id' := h
    exact assignBinding_relates (htarget.imp fun _ h => h) h'
  case property.property object name object' name' =>
    obtain ⟨h, rfl⟩ := h
    exact setProperty_relates h h'
  case item.item => exact setItem_relates h.1 h.2 h'
  all_goals exact h.elim

/-! ### Operators -/

@[grind ←] theorem arithmetic_relates {op : NumericOp} (h : (left, left') ∈ D)
    (h' : (right, right') ∈ D) :
    Φ.Relates D (arithmetic op left right) (arithmetic op left' right') :=
  numeric_relates h h'

@[grind ←] theorem addValues_relates (h : (left, left') ∈ D) (h' : (right, right') ∈ D) :
    Φ.Relates D (addValues left right) (addValues left' right') := by
  unfold addValues
  repeat' first
    | with_reducible refine .bind_temp ?_ fun _ _ => ?_
    | with_reducible refine .bind_same ?_ fun _ => ?_
    | split
  all_goals grind

@[grind ←] theorem relate_relates {op : DynamicOp} (h : (left, left') ∈ D)
    (h' : (right, right') ∈ D) : Φ.Relates D (relate op left right) (relate op left' right') := by
  unfold relate
  repeat' first
    | with_reducible refine .bind_temp ?_ fun _ _ => ?_
    | with_reducible refine .bind_same ?_ fun _ => ?_
    | split
    | dsimp only
  all_goals grind

@[grind ←] theorem applyBinary_relates {op : BinaryOp} (h : (left, left') ∈ D)
    (h' : (right, right') ∈ D) :
    Φ.Relates D (applyBinary op left right) (applyBinary op left' right') := by
  unfold applyBinary
  repeat' first
    | with_reducible refine .bind_temp ?_ fun _ _ => ?_
    | split
  all_goals grind

@[grind ←] theorem binary_relates {op : BinaryOp} {left left' right right' : Lower Temp}
    (h : Φ.Relates D left left') (h' : Φ.Relates D right right') :
    Φ.Relates D (binary op left right) (binary op left' right') := by
  unfold binary
  repeat' first
    | with_reducible refine .bind_temp ?_ fun _ _ => ?_
    | split
  all_goals grind

@[grind ←] theorem unary_relates {op : UnaryOp}
    (h : Φ.Relates D operand operand') : Φ.Relates D (unary op operand) (unary op operand') := by
  unfold unary
  repeat' first
    | with_reducible refine .bind_temp ?_ fun _ _ => ?_
    | split
  all_goals grind

@[grind ←] theorem logicalTest_relates {op : LogicalOp} (h : (left, left') ∈ D) :
    Φ.Relates D (logicalTest op left) (logicalTest op left') := by
  unfold logicalTest
  split
  · exact .bind_temp (asBoolean_relates h) fun _ _ => pure_relates ⟨rfl, (.head _)⟩
  · exact .bind_temp (asBoolean_relates h) fun _ _ => pure_relates ⟨rfl, (.head _)⟩
  · refine .bind_temp (asObject_relates h) fun _ _ => ?_
    exact .bind_temp (define_relates (by grind)) fun _ _ => pure_relates ⟨rfl, (.head _)⟩

@[grind ←] theorem logical_relates {op : LogicalOp} {left left' right right' : Lower Temp}
    (h : Φ.Relates D left left') (h' : Φ.Relates D right right') :
    Φ.Relates D (logical op left right) (logical op left' right') := by
  refine .bind_same (joinCarrier_relates _ _) fun carrier => ?_
  refine .bind_same (freshLabel_relates) fun skip => .bind_same (freshLabel_relates) fun join => ?_
  refine .bind_temp h fun value value' => ?_
  refine .bind (logicalTest_relates (.head _)) fun E test test' htest => ?_
  obtain ⟨expected, condition⟩ := test
  obtain ⟨expected', condition'⟩ := test'
  obtain ⟨rfl, hcondition⟩ : expected = expected' ∧ (condition, condition') ∈ E := htest
  repeat' with_reducible first | refine .bind_temp ?_ fun _ _ => ?_ | refine .bind_same ?_ fun _ => ?_
  all_goals grind

@[grind ←] theorem condition_relates {test test' : Lower Temp} (h : Φ.Relates D test test') :
    Φ.Relates D (condition test) (condition test') :=
  h.bind_temp fun _ _ => asBoolean_relates (by grind)

@[grind ←] theorem conditional_relates {test test' consequent consequent' alternate alternate' : Lower Temp}
    (h : Φ.Relates D test test') (h' : Φ.Relates D consequent consequent')
    (h'' : Φ.Relates D alternate alternate') :
    Φ.Relates D (conditional test consequent alternate) (conditional test' consequent' alternate') := by
  unfold conditional
  repeat' with_reducible first | refine .bind_temp ?_ fun _ _ => ?_ | refine .bind_same ?_ fun _ => ?_
  all_goals grind

@[grind ←] theorem update_relates {op : UpdateOp} {inFront : Bool}
    (htarget : Φ.Resolves target) (h : Linked D target target') :
    Φ.Relates D (update op inFront target) (update op inFront target') := by
  unfold update
  repeat' with_reducible first | refine .bind_temp ?_ fun _ _ => ?_ | refine .bind_same ?_ fun _ => ?_
  all_goals grind

@[grind ←] theorem concatText_relates {part part' : Temp}
    (h : Linked D before before') (h' : (part, part') ∈ D) :
    Φ.Relates D (concatText before part) (concatText before' part') := by
  cases before <;> cases before'
  case none.none => exact pure_temp_relates h'
  case some.some t t' =>
    have ht : (t, t') ∈ D := h
    exact define_relates (by grind)
  all_goals exact h.elim

@[grind ←] theorem concatConstant_relates {text : String} (h : Linked D before before') :
    Φ.Relates D (concatConstant before text) (concatConstant before' text) := by
  unfold concatConstant
  split
  · exact pure_relates h
  · refine .bind_temp (string_relates text) fun _ _ => ?_
    refine .bind_temp (concatText_relates (Linkable.mono h (List.subset_cons_self _ _)) (by grind))
      fun _ _ => pure_relates ?_
    exact (.head _)

@[grind ←] theorem concatConstants_relates {texts : List String} (h : Linked D before before') :
    Φ.Relates D (concatConstants before texts) (concatConstants before' texts) := by
  induction texts generalizing before before' D with
  | nil => exact pure_relates h
  | cons text rest ih =>
    exact .bind (concatConstant_relates h) fun E _ _ hE =>
      ih (Linkable.mono hE (List.subset_append_left _ _))

/-! ### Calls -/

/-- The arguments of a call are related, where they are appended to related arrays. -/
def RelatesArgs (Φ : Simulation) (each each' : Option Temp → Lower (List Temp)) : Prop :=
  ∀ (array array' : Option Temp) (D : Pairing), Linked D array array' →
    Φ.Relates D (each array) (each' array')

variable {each each' : Option Temp → Lower (List Temp)}

@[grind ←] theorem arguments_relates {operandHeld : Bool} (h : RelatesArgs Φ each each') :
    Φ.Relates D (arguments args operandHeld each) (arguments args operandHeld each') := by
  refine .bind_same (forbidSuspend_relates _) fun _ => ?_
  split
  · refine .bind_temp (hΦ.define ⟨.nil, rfl⟩) fun array array' => ?_
    refine .bind (h (some array) (some array') _ (.head _)) fun E _ _ _ => pure_relates ?_
    exact List.mem_append_right E (.head _)
  · exact .bind (h none none _ trivial) fun E _ _ hE =>
      pure_relates (Linkable.mono (α := List Temp) hE (List.subset_append_left _ _))

@[grind ←] theorem plainArguments_relates {spread : Decline} (h : RelatesArgs Φ each each') :
    Φ.Relates D (plainArguments args each spread) (plainArguments args each' spread) := by
  unfold plainArguments
  split
  · exact decline_relates _
  · exact .bind_same (forbidSuspend_relates _) fun _ => h none none _ trivial

@[grind ←] theorem packed_relates {args args' : Arguments} (h : Linked D args args') :
    Φ.Relates D (packed args) (packed args') := by
  cases args <;> cases args'
  case fixed.fixed => exact hΦ.define ⟨h, rfl⟩
  case collected.collected => exact pure_temp_relates h
  all_goals exact h.elim

@[grind ←] theorem callValue_relates {function function' : Temp} {args args' : Arguments}
    (h : (function, function') ∈ D) (hargs : Linked D args args') :
    Φ.Relates D (callValue function args) (callValue function' args') := by
  refine .bind_temp (asObject_relates h) fun f f' => .bind_temp (currentScopes_relates) fun c c' => ?_
  exact hΦ.call (.value f c) (.value f' c') (Linkable.mono hargs (by grind)) ⟨by grind, by grind⟩

@[grind ←] theorem callMethodValue_relates {function function' receiver receiver' : Temp}
    {args args' : Arguments} (h : (function, function') ∈ D) (h' : (receiver, receiver') ∈ D)
    (hargs : Linked D args args') :
    Φ.Relates D (callMethodValue function receiver args) (callMethodValue function' receiver' args') :=
  .bind_temp (currentScopes_relates) fun _ _ => .bind_temp (packed_relates (by grind))
    fun _ _ => define_relates (by grind)

@[grind ←] theorem boundMethod?_relates {arity : Nat} (h : (receiver, receiver') ∈ D) :
    Φ.Relates D (boundMethod? receiver name arity) (boundMethod? receiver' name arity) := by
  refine read_bind (fun _ _ => rfl) fun ctx => .bind_same (storageOf_relates h) fun storage => ?_
  repeat' split
  all_goals grind

@[grind ←] theorem callDynamicMember_relates
    {args args' : Arguments} (h : (receiver, receiver') ∈ D) (hargs : Linked D args args') :
    Φ.Relates D (callDynamicMember receiver name args) (callDynamicMember receiver' name args') := by
  refine .bind_temp (asObject_relates h) fun r r' => ?_
  exact hΦ.call (.member r name) (.member r' name) (Linkable.mono hargs (by grind)) ⟨by grind, rfl⟩

@[grind ←] theorem callMember_relates
    {args args' : Arguments} (h : (receiver, receiver') ∈ D) (hargs : Linked D args args') :
    Φ.Relates D (callMember receiver name args) (callMember receiver' name args') := by
  cases args <;> cases args'
  case collected.collected => exact callDynamicMember_relates h hargs
  case fixed.fixed values values' =>
    have hvalues : Linked D values values' := hargs
    have hlength : values.length = values'.length := List.Forall₂.length_eq hargs
    unfold callMember
    dsimp only
    rw [hlength]
    refine .bind_same (boundMethod?_relates h) fun bound => ?_
    split
    · exact callDynamicMember_relates h hargs
    · exact define_relates (by grind)
  all_goals exact hargs.elim

omit hΦ in
theorem staticMember?_linked {registry : Registry} {object : Expr} {arity : Nat}
    {operation : List Temp → Operation} (h : staticMember? registry object name arity = some operation)
    {ts ts' : List Temp} (hts : Linked D ts ts') : (operation ts).Linked D (operation ts') := by
  unfold staticMember? at h
  split at h
  · cases h
    exact ⟨hts, rfl⟩
  · obtain ⟨method, -, rfl⟩ := Option.map_eq_some_iff.1 h
    exact ⟨hts, rfl⟩
  · cases h

@[grind ←] theorem memberCall_relates {object : Expr}
    {receiver receiver' : Lower Temp} (h : Φ.Relates D receiver receiver')
    (hargs : RelatesArgs Φ each each') :
    Φ.Relates D (memberCall object name args receiver each)
      (memberCall object name args receiver' each') := by
  refine read_bind (fun _ _ => rfl) fun ctx => ?_
  dsimp only
  split
  · rename_i operation hbound
    refine .bind_same (forbidSuspend_relates _) fun _ => ?_
    refine .bind (hargs none none _ trivial) fun E ts ts' hts => hΦ.define ?_
    split at hbound
    · cases hbound
    · exact staticMember?_linked hbound (Linkable.mono hts (List.subset_append_left _ _))
  · refine h.bind_temp fun r r' => ?_
    refine .bind (arguments_relates hargs) fun E _ _ hE => callMember_relates (by grind) ?_
    exact Linkable.mono hE (List.subset_append_left _ _)

/-- A known callee can be called as soon as the arguments are there. -/
theorem knownCallee?_calls_relates {known : Option (List Temp → Lower Temp)} {ctx : Context}
    {s s' : Session} (hcallee : Φ.Resolves callee) (hctx : Φ.Always (ctx.tree = ·))
    (h : knownCallee? callee ctx s = .ok known s') {call : List Temp → Lower Temp}
    (hcall : known = some call) {ts ts' : List Temp} (hts : Linked D ts ts') :
    Φ.Relates D (call ts) (call ts') := by
  subst hcall
  cases callee with
  | ident binding =>
    obtain ⟨b, s₁, hb, h₁⟩ := bind_ok h
    cases hkind : b.kind <;> cases hcallable : b.callable <;> cases hscope : b.functionScope <;>
      rw [hkind, hcallable, hscope] at h₁ <;> cases h₁
    rename_i function
    have hfound : ctx.tree.binding? binding = some b := (require_ok hb).1
    have hfunction : Φ.Resolves function := resolves_of_always fun tree htree => by
      obtain ⟨b', hb', hall⟩ := hcallee.always tree htree
      obtain rfl := Option.some.inj (hb'.symm.trans (hctx tree htree ▸ hfound))
      exact hall _ hscope
    exact .bind_temp (calleeScopes_relates hfunction) fun scopes scopes' => define_relates (by grind)
  | intrinsic name =>
    cases h
    exact hΦ.define ⟨hts, rfl⟩
  | _ => cases h

theorem knownCallee?_relates (hcallee : Φ.Resolves callee) :
    Φ.Follows D (knownCallee? callee) := by
  unfold knownCallee?
  split
  · refine requireBinding_bind (hcallee.imp fun _ h => h).binding? fun b _ => ?_
    split <;> exact pure_same_relates _
  all_goals exact pure_same_relates _

@[grind ←] theorem plainCall_relates
    {function function' : Lower Temp} (hcallee : Φ.Resolves callee) (h : Φ.Relates D function function')
    (hargs : RelatesArgs Φ each each') :
    Φ.Relates D (plainCall callee args function each) (plainCall callee args function' each') := by
  refine (knownCallee?_relates hcallee).bind_run fun E known known' hknown hrun => ?_
  obtain rfl : known = known' := hknown
  obtain ⟨ctx, ctx', s, s', hctx, hrun⟩ := hrun
  split
  · refine .bind_same (forbidSuspend_relates _) fun _ => ?_
    refine .bind (hargs none none _ trivial) fun F ts ts' hts => ?_
    exact knownCallee?_calls_relates hcallee (hΦ.tree hctx) hrun rfl (Linkable.mono hts (List.subset_append_left _ _))
  · refine .bind_temp (h.mono (List.subset_append_right _ _)) fun f f' => ?_
    refine .bind (arguments_relates hargs) fun F _ _ hF => callValue_relates (by grind) ?_
    exact Linkable.mono hF (List.subset_append_left _ _)

@[grind ←] theorem optionalMethodCall_relates {object object' : Lower Temp}
    {args args' : Lower Arguments} (h : Φ.Relates D object object') (hargs : Φ.Relates D args args') :
    Φ.Relates D (optionalMethodCall name object args) (optionalMethodCall name object' args') := by
  refine h.bind_temp fun _ _ => .bind_temp (asObject_relates (by grind)) fun r r' => ?_
  refine .bind_temp (define_relates (by grind)) fun m m' => optionally_relates (by grind) ?_
  refine .bind (hargs.mono (by grind)) fun E _ _ hE => callMethodValue_relates (by grind) (by grind) ?_
  exact Linkable.mono hE (List.subset_append_left _ _)

@[grind ←] theorem optionalCall_relates {callee callee' : Lower Temp} {args args' : Lower Arguments}
    (h : Φ.Relates D callee callee') (hargs : Φ.Relates D args args') :
    Φ.Relates D (optionalCall callee args) (optionalCall callee' args') := by
  refine h.bind_temp fun f f' => optionally_relates (by grind) ?_
  refine .bind (hargs.mono (by grind)) fun E _ _ hE => callValue_relates (by grind) ?_
  exact Linkable.mono hE (List.subset_append_left _ _)

@[grind ←] theorem thisValue_relates : Φ.Follows D thisValue := by
  refine read_bind (fun _ _ => rfl) fun ctx => ?_
  refine get_bind fun s s' h => ?_
  rw [h.superCalled]
  split
  · exact .bind_same (throwBuiltInError_relates ..) fun _ => undefined_relates
  · exact hΦ.define ⟨.nil, rfl⟩

@[grind ←] theorem superCall_relates (h : RelatesArgs Φ each each') :
    Φ.Relates D (superCall args each) (superCall args each') := by
  refine read_bind (fun _ _ => rfl) fun ctx => ?_
  split
  · exact decline_relates _
  refine .bind (plainArguments_relates h) fun E _ _ hE => ?_
  refine .bind_same (hΦ.perform ⟨Linkable.mono hE (List.subset_append_left _ _), rfl⟩) fun _ => ?_
  refine .bind_same (modify_relates (fun _ => ⟨rfl, rfl, rfl, rfl, rfl, rfl⟩) fun s s' h => ?_)
    fun _ => thisValue_relates
  exact ⟨h.slots, h.labelCount, h.stateFields, h.epilogue, h.placements, h.hoisted, rfl,
    h.carrierCount⟩

@[grind ←] theorem padding_relates (n : Nat) : Φ.Follows D (padding n) := by
  induction n generalizing D with
  | zero => exact pure_relates (α := List Temp) .nil
  | succ n ih =>
    refine .bind_temp (undefined_relates) fun t t' => .bind ih fun E ts ts' hE => ?_
    refine pure_relates (α := List Temp) (.cons ?_ ?_)
    · exact List.mem_append_right _ (.head _)
    · exact Linkable.mono (α := List Temp) hE (List.subset_append_left _ _)

@[grind ←] theorem newClass_relates {className : String} (h : RelatesArgs Φ each each') :
    Φ.Relates D (newClass className args each) (newClass className args each') := by
  refine read_bind (fun _ _ => rfl) fun ctx => ?_
  split
  · exact decline_relates _
  split
  · exact decline_relates _
  refine .bind (plainArguments_relates h) fun E values values' hE => ?_
  rw [List.Forall₂.length_eq hE]
  refine .bind (padding_relates _) fun F missing missing' hF => hΦ.define ⟨?_, rfl⟩
  refine List.rel_append ?_ ?_
  · exact Linkable.mono (α := List Temp) hE
      (List.subset_append_of_subset_right _ (List.subset_append_left _ _))
  · exact Linkable.mono (α := List Temp) hF (List.subset_append_left _ _)

@[grind ←] theorem newIntrinsic_relates (h : RelatesArgs Φ each each') :
    Φ.Relates D (newIntrinsic name args each) (newIntrinsic name args each') :=
  .bind (plainArguments_relates h) fun _ _ _ hE =>
    hΦ.define ⟨Linkable.mono hE (List.subset_append_left _ _), rfl⟩

@[grind ←] theorem newValue_relates {callee callee' : Lower Temp} {args args' : Lower Arguments}
    (h : Φ.Relates D callee callee') (hargs : Φ.Relates D args args') :
    Φ.Relates D (newValue callee args) (newValue callee' args') := by
  refine h.bind_temp fun _ _ => .bind_temp (asObject_relates (by grind)) fun c c' => ?_
  refine .bind (hargs.mono (by grind)) fun E _ _ hE => ?_
  refine .bind_temp (packed_relates (Linkable.mono hE (List.subset_append_left _ _))) fun _ _ => ?_
  exact define_relates (by grind)

/-! ### Suspension -/

@[grind ←] theorem rejectRoute?_relates (kind : SuspendKind) : Φ.Follows D (rejectRoute? kind) := by
  refine read_bind (fun _ _ => rfl) fun ctx => ?_
  repeat' first
    | with_reducible refine .bind_same ?_ fun _ => ?_
    | split
  all_goals grind

@[grind ←] theorem suspend_relates {kind : SuspendKind} (hpause : Φ.pauses = true)
    (h : (value, value') ∈ D) :
    Φ.Relates D (suspend kind value) (suspend kind value') := by
  refine read_bind (fun _ _ => rfl) fun ctx => ?_
  split
  · exact decline_relates _
  refine .bind_temp (asObject_relates h) fun v v' => ?_
  refine .bind_same (rejectRoute?_relates kind) fun reject => ?_
  refine .bind_same (freshLabel_relates) fun label => ?_
  exact hΦ.pause hpause (by grind)

@[grind ←] theorem await_relates (hpause : Φ.pauses = true) (h : Φ.Relates D operand operand') :
    Φ.Relates D (await operand) (await operand') := by
  refine read_bind (fun _ _ => rfl) fun ctx => ?_
  split
  · exact decline_relates _
  · exact h.bind_temp fun _ _ => suspend_relates hpause (by grind)

@[grind ←] theorem takeRequest_relates {flag value : StateField} {proceed proceed' : Temp → Lower Unit}
    (h : ∀ t t' E, (t, t') ∈ E → Φ.Relates E (proceed t) (proceed' t')) :
    Φ.Relates D (takeRequest flag value proceed) (takeRequest flag value proceed') := by
  unfold takeRequest
  repeat' with_reducible first | refine .bind_temp ?_ fun _ _ => ?_ | refine .bind_same ?_ fun _ => ?_
  all_goals grind

@[grind ←] theorem yieldValue_relates (hpause : Φ.pauses = true) (h : (value, value') ∈ D) :
    Φ.Relates D (yieldValue value) (yieldValue value') := by
  unfold yieldValue
  repeat' with_reducible first | refine .bind_temp ?_ fun _ _ => ?_ | refine .bind_same ?_ fun _ => ?_
  all_goals grind

@[grind ←] theorem setDelegateMode_relates (mode : Nat) : Φ.Follows D (setDelegateMode mode) :=
  .bind_temp (number_relates _) fun _ _ => storeState_relates (by grind)

@[grind ←] theorem clearDelegate_relates : Φ.Follows D clearDelegate :=
  .bind_same (setDelegateMode_relates 0) fun _ => clearState_relates _

@[grind ←] theorem delegateToIterable_relates {operand operand' : Temp} {result : Carrier}
    (hpause : Φ.pauses = true) (h : (operand, operand') ∈ D) :
    Φ.Relates D (delegateToIterable operand result) (delegateToIterable operand' result) := by
  unfold delegateToIterable
  repeat' with_reducible first | refine .bind_temp ?_ fun _ _ => ?_ | refine .bind_same ?_ fun _ => ?_
  all_goals grind

@[grind ←] theorem forward_relates (step wasReturn : Carrier) (method : String)
    (argument : StateField) (request : Option StateField) (returning : Bool) :
    Φ.Follows D (forward step wasReturn method argument request returning) := by
  unfold forward
  repeat' first
    | with_reducible refine .bind_temp ?_ fun _ _ => ?_
    | with_reducible refine .bind_same ?_ fun _ => ?_
    | split
  all_goals grind

@[grind ←] theorem delegateToGenerator_relates {operand operand' : Temp} {result : Carrier}
    (hpause : Φ.pauses = true) (h : (operand, operand') ∈ D) :
    Φ.Relates D (delegateToGenerator operand result) (delegateToGenerator operand' result) := by
  unfold delegateToGenerator
  repeat' with_reducible first | refine .bind_temp ?_ fun _ _ => ?_ | refine .bind_same ?_ fun _ => ?_
  all_goals grind

@[grind ←] theorem delegate_relates {operand operand' : Temp} (hpause : Φ.pauses = true)
    (h : (operand, operand') ∈ D) :
    Φ.Relates D (delegate operand) (delegate operand') := by
  unfold delegate
  repeat' with_reducible first | refine .bind_temp ?_ fun _ _ => ?_ | refine .bind_same ?_ fun _ => ?_
  all_goals grind

@[grind ←] theorem yieldExpr_relates {delegates : Bool} (hpause : Φ.pauses = true)
    (h : Φ.Relates D operand operand') :
    Φ.Relates D (yieldExpr operand delegates) (yieldExpr operand' delegates) := by
  refine read_bind (fun _ _ => rfl) fun ctx => ?_
  split
  · exact decline_relates _
  refine h.bind_temp fun v v' => ?_
  split
  · exact delegate_relates hpause (by grind)
  · exact yieldValue_relates hpause (by grind)

end Basic

end ScriptLowering.Lower
