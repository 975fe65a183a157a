import ScriptLowering.Proofs.Course.Step

/-!
# Operators, calls and suspensions

One lemma for each step of the lowering that combines the values of expressions.

The result of a call through the runtime and that of a suspension are allocated some time before the
instruction that defines them. In between they are idle, and nothing else is emitted that concerns
them.
-/

namespace ScriptLowering

variable {args : List Argument} {before : Option Temp} {left right : Temp} {operand : Lower Temp}
  {receiver : Temp}

namespace Guarantee

/-- A truth value, together with what it is compared with. -/
@[simp] def test : Guarantee (Bool × Temp) := ⟨fun _ => [], fun p => [.has p.2 .bool]⟩

/-- The parts of an assignment target. -/
@[simp] def target : Guarantee Lower.Target where
  loose _ := []
  facts
    | .binding _ => []
    | .property object _ => [.has object .any]
    | .item object key => [.has object .any, .has key .any]

/-- The arguments of a call. -/
@[simp] def arguments : Guarantee Lower.Arguments where
  loose _ := []
  facts
    | .fixed values => values.map fun t => .has t .object
    | .collected array => [.has array .array]

/-- A text, if there is one. -/
@[simp] def text : Guarantee (Option Temp) where
  loose t := t.toList
  facts t := t.toList.flatMap fun t => [.has t .string, .has t .any]

end Guarantee

namespace Lower

attribute [local simp] Operation.demands Effect.demands Instr.demands Coercion.demand objects

variable {ctx : Context} {V : List Temp} {Γ : List Fact}

/-! ### Scope chains -/

theorem chainSource?_types (scope : ScopeId) : (chainSource? scope).Types ctx V Γ
    ⟨fun _ => [], fun source => source.toList.flatMap Guarantee.sourceFacts⟩ := by
  refine read_types ?_
  split
  · exact pure_types (by simp) (by simp [ScopeSource.temp?])
  split
  · rename_i carrier hlookup
    refine (loadBlock_types (OpenBlocks.mem_of_lookup hlookup)).settle fun t => ?_
    exact pure_types (by simp) (by simp [ScopeSource.temp?])
  · refine pure_types (by simp) ?_
    cases ctx.chain.idxOf? scope <;> simp [ScopeSource.temp?]

theorem chainSource_types (scope : ScopeId) : (chainSource scope).Types ctx V Γ .source := by
  refine (chainSource?_types scope).settle fun source => ?_
  split
  · exact pure_types (by simp) (by simp)
  · exact requireScope_types fun _ _ => decline_types _

/-- Objects meet the demand for objects. -/
theorem mem_of_objects {ts : List Temp} (h : Guarantee.objects.facts ts ⊆ Γ) :
    ∀ d ∈ objects ts, .has d.1 d.2 ∈ Γ := by
  intro d hd
  obtain ⟨t, ht, rfl⟩ := List.mem_map.1 hd
  exact h (List.mem_map_of_mem ht)

theorem buildScopes_types {sources : List ScopeSource}
    (h : ∀ t ∈ sources.filterMap ScopeSource.temp?, .has t .object ∈ Γ) :
    (buildScopes sources).Types ctx V Γ (.fresh .object) :=
  define_types .object (mem_of_objects fun d hd => by
    obtain ⟨t, ht, rfl⟩ := List.mem_map.1 hd
    exact h t ht) rfl rfl

theorem mem_sourceFacts {t : Temp} {sources : List ScopeSource}
    (h : t ∈ sources.filterMap ScopeSource.temp?) :
    .has t .object ∈ sources.flatMap Guarantee.sourceFacts := by
  obtain ⟨source, hsource, ht⟩ := List.mem_filterMap.1 h
  exact List.mem_flatMap.2 ⟨source, hsource, by simp [ht]⟩

theorem calleeScopes_types (callee : ScopeId) :
    (calleeScopes callee).Types ctx V Γ (.fresh .object) := by
  refine read_types (require_types fun layout _ => ?_)
  split
  · refine (chainSource?_types _).settle fun source => buildScopes_types fun t ht => ?_
    exact List.mem_append_left _ (mem_sourceFacts ht)
  · refine (mapM_types _ fun scope _ _ => chainSource_types scope).settle fun sources => ?_
    exact buildScopes_types fun t ht => List.mem_append_left _ (mem_sourceFacts ht)

theorem currentScopes_types : currentScopes.Types ctx V Γ (.fresh .object) := by
  refine read_types ?_
  refine .settle (Q := ⟨fun _ => [], fun blocks => blocks.flatMap (Guarantee.held .object).facts⟩)
    (mapM_types _ fun p hp Γ => ?_) fun blocks => buildScopes_types fun t ht => ?_
  · exact (loadBlock_types (List.mem_reverse.1 hp)).held
  · have hmem : t ∈ blocks := by
      simp only [List.filterMap_append, List.mem_append, List.mem_filterMap, List.mem_map] at ht
      rcases ht with (⟨_, ⟨_, _, rfl⟩, ht⟩ | ⟨_, hown, ht⟩) | ⟨_, ⟨_, hmem, rfl⟩, ht⟩
      · cases ht
      · split at hown
        · obtain rfl := List.mem_singleton.1 hown
          cases ht
        · cases hown
      · cases ht
        exact hmem
    exact List.mem_append_left _ (List.mem_flatMap.2 ⟨t, hmem, by simp⟩)

theorem closure_types (ref : FunctionRef) : (closure ref).Types ctx V Γ (.fresh .any) :=
  (calleeScopes_types _).settle fun _ => define_types .any (by simp) rfl rfl

theorem declareFunction_types (binding : BindingId) (ref : FunctionRef) :
    (declareFunction binding ref).Types ctx V Γ .nothing :=
  (closure_types ref).bind fun _ => initBinding_types (by simp) (by simp)

theorem hoist_types (stmts : List Stmt) : (hoist stmts).Types ctx V Γ .nothing := by
  induction stmts with
  | nil => exact done_types
  | cons stmt rest ih =>
    cases stmt with
    | functionDecl binding ref =>
      refine (declareFunction_types binding ref).seq fun _ => ?_
      exact .seq (modify_types fun _ => ⟨rfl, rfl, rfl, rfl, rfl, rfl, rfl, rfl⟩) fun _ => ih
    | _ => exact ih

/-! ### Members and items -/

/-- A declared field belongs to an object. -/
theorem declaredField?_types {object : Temp} {name : String} (h : .has object .any ∈ Γ) :
    (declaredField? object name).Types ctx V Γ
      ⟨fun _ => [], fun field => field.toList.map fun _ => .has object .object⟩ := by
  refine (storageOf_exact (by simp [*])).settle fun storage => ?_
  split
  · exact pure_types (by simp) (by simp)
  · rename_i className hclass
    have hobject : storage.isObjectShaped = true := by
      obtain ⟨kind, ty⟩ := storage
      cases kind <;> simp_all [Storage.className?, Storage.isObjectShaped]
    refine .shaped object .object hobject (by simp) (read_types (pure_types (by simp) ?_))
    cases ctx.registry.field? className name <;> simp

theorem getProperty_types {object : Temp} {name : String} (h : .has object .any ∈ Γ) :
    (getProperty object name).Types ctx V Γ (.fresh .any) := by
  refine (declaredField?_types h).settle fun field => ?_
  split
  · exact define_types .any (by simp [Operation.demands, objects]) (isKnown_declared _) rfl
  refine (storageOf_exact (by simp [*])).settle fun storage => ?_
  split
  · rename_i hlength
    have hobject : storage.isObjectShaped = true := by
      obtain ⟨kind, ty⟩ := storage
      cases kind <;> simp_all [Storage.isArray, Storage.isString, Storage.isObjectShaped]
    exact .shaped object .object hobject (by simp) (define_types .any (by simp) rfl rfl)
  · refine (asObject_types (by simp [*])).settle fun object => ?_
    exact define_types .any (by simp) rfl rfl

theorem setProperty_types {object value : Temp} {name : String} (h : .has object .any ∈ Γ)
    (h' : .has value .any ∈ Γ) : (setProperty object name value).Types ctx V Γ .nothing := by
  refine (declaredField?_types h).settle fun field => ?_
  split
  · rename_i field
    refine (asObject_types (by simp [*])).settle fun stored => ?_
    exact .fieldValue stored field.ty (by simp) (perform_types (by simp) rfl)
  · refine (asObject_types (by simp [*])).settle fun object => ?_
    refine (asObject_types (by simp [*])).settle fun value => ?_
    exact perform_types (by simp) rfl

theorem getItem_types {object key : Temp} (h : .has object .any ∈ Γ) (h' : .has key .any ∈ Γ) :
    (getItem object key).Types ctx V Γ (.fresh .any) := by
  refine (storageOf_exact (by simp [*])).settle fun storage => (storageOf_exact (by simp [*])).settle fun index => ?_
  split
  · rename_i hdirect
    obtain ⟨harray, hdouble⟩ := Bool.and_eq_true_iff.1 hdirect
    refine .shaped object .array harray (by simp) (.shaped key .double hdouble (by simp) ?_)
    exact define_types .any (by simp) rfl rfl
  · refine (asObject_types (by simp [*])).settle fun object => ?_
    refine (asObject_types (by simp [*])).settle fun key => ?_
    exact define_types .any (by simp) rfl rfl

theorem setItem_types {object key value : Temp} (h : .has object .any ∈ Γ) (h' : .has key .any ∈ Γ)
    (h'' : .has value .any ∈ Γ) : (setItem object key value).Types ctx V Γ .nothing := by
  refine (asObject_types (by simp [*])).settle fun object => (asObject_types (by simp [*])).settle fun key => ?_
  refine (asObject_types (by simp [*])).settle fun value => ?_
  exact perform_types (by simp) rfl

theorem optionally_types {object : Temp} {access : Lower Temp} (h : .has object .any ∈ Γ)
    (haccess : access.Types ctx [] Γ (.fresh .any)) :
    (optionally object access).Types ctx V Γ (.fresh .any) := by
  refine (joinCarrier_types rfl).settle fun carrier => .label fun absent => ?_
  refine .label fun finish => (asObject_types (by simp [*])).settle fun value => ?_
  refine (define_types .bool (by simp) rfl rfl).settle fun nullish => ?_
  refine .branchIf (by simp) ?_
  refine (haccess.mono (List.nil_subset _) fun d hd => by simp [hd]).settle fun accessed => ?_
  refine (storeCarrier_types .object (by simp) (by simp) (.inl rfl)).seq fun _ => ?_
  refine .branch <| .place ?_
  refine undefined_types.settle fun missing => ?_
  refine (storeCarrier_types .object (by simp) (by simp) (.inl rfl)).seq fun _ => ?_
  exact .place <| loadCarrier_types .object .any (by simp) rfl

theorem readTarget_types {target : Target} (h : Guarantee.target.facts target ⊆ Γ) :
    (readTarget target).Types ctx V Γ (.fresh .any) := by
  cases target with
  | binding binding => exact loadBinding_types binding
  | property object name => exact getProperty_types (h (by simp))
  | item object key => exact getItem_types (h (by simp)) (h (by simp))

theorem writeTarget_types {target : Target} {value : Temp} (h : Guarantee.target.facts target ⊆ Γ)
    (hvalue : value ∈ V) (hany : .has value .any ∈ Γ) :
    (writeTarget target value).Types ctx V Γ .nothing := by
  cases target with
  | binding binding => exact assignBinding_types (by simp [*]) (by simp [*])
  | property object name => exact setProperty_types (h (by simp)) hany
  | item object key => exact setItem_types (h (by simp)) (h (by simp)) hany

/-! ### Operators -/

theorem arithmetic_types {op : NumericOp} (h : .has left .double ∈ Γ)
    (h' : .has right .double ∈ Γ) : (arithmetic op left right).Types ctx V Γ (.fresh .double) :=
  define_types .double (by simp [*]) rfl rfl

/-- A dynamic addition, whose result is an object for the time being. -/
theorem define_add_types (h : .has left .object ∈ Γ) (h' : .has right .object ∈ Γ) :
    (define .object (.add left right)).Types ctx V Γ (.fresh .any) := by
  refine define_raw_types rfl fun s _ hΓ => ⟨?_, trivial, layout_allocate s .object⟩
  simpa [Operation.demands, objects] using ⟨hΓ _ h, hΓ _ h'⟩

/-- Two values, each of which is loose or a number, are converted and combined. -/
theorem asNumbers_types {op : NumericOp} (h : .has left .any ∈ Γ)
    (h' : .has right .any ∈ Γ) (hl : left ∈ V ∨ .has left .double ∈ Γ)
    (hr : right ∈ V ∨ .has right .double ∈ Γ) :
    (do
      let l ← asNumber left
      let r ← asNumber right
      arithmetic op l r : Lower Temp).Types ctx V Γ (.fresh .any) := by
  refine (asNumber_types (by simp [*]) (by simp [*])).bind fun l => ?_
  refine (asNumber_types (by simp [h']) (by simpa using hr.imp_right .inr)).settle fun r => ?_
  exact (arithmetic_types (by simp) (by simp)).any

/-- The sum of two values, each of which is loose or a number. -/
theorem addValues_types (h : .has left .any ∈ Γ) (h' : .has right .any ∈ Γ)
    (hl : left ∈ V ∨ .has left .double ∈ Γ) (hr : right ∈ V ∨ .has right .double ∈ Γ) :
    (addValues left right).Types ctx V Γ (.fresh .any) := by
  refine (storageOf_types left).seq fun l => (storageOf_types right).seq fun r => ?_
  split
  · refine (asText_types (by simp [*])).settle fun left => (asText_types (by simp [*])).settle fun right => ?_
    exact define_types .any (by simp) rfl rfl
  split
  · exact asNumbers_types (by simp [*]) (by simp [*]) (by simp [*]) (by simp [*])
  · refine (asObject_types (by simp [*])).settle fun left => (asObject_types (by simp [*])).settle fun right => ?_
    exact define_add_types (by simp) (by simp)

theorem relate_types {op : DynamicOp} (h : .has left .any ∈ Γ)
    (h' : .has right .any ∈ Γ) : (relate op left right).Types ctx V Γ (.fresh .any) := by
  refine (storageOf_exact (by simp [*])).settle fun l => (storageOf_exact (by simp [*])).settle fun r => ?_
  dsimp only
  split
  · rename_i hdoubles _
    obtain ⟨hl, hr⟩ := Bool.and_eq_true_iff.1 hdoubles
    refine .shaped left .double hl (by simp) (.shaped right .double hr (by simp) ?_)
    exact define_types .any (by simp) rfl rfl
  · refine (asObject_types (by simp [*])).settle fun left => ?_
    refine (asObject_types (by simp [*])).settle fun right => ?_
    exact define_types .any (by simp) rfl rfl

theorem applyBinary_types {op : BinaryOp} (h : .has left .any ∈ Γ)
    (h' : .has right .any ∈ Γ) (hl : left ∈ V ∨ .has left .double ∈ Γ)
    (hr : right ∈ V ∨ .has right .double ∈ Γ) :
    (applyBinary op left right).Types ctx V Γ (.fresh .any) := by
  unfold applyBinary
  split
  · exact addValues_types (by simp [*]) (by simp [*]) (by simp [*]) (by simp [*])
  · exact asNumbers_types (by simp [*]) (by simp [*]) (by simp [*]) (by simp [*])
  · exact relate_types (by simp [*]) (by simp [*])

theorem binary_types {op : BinaryOp} {left right : Lower Temp} (h : left.GivesValue)
    (h' : right.GivesValue) : (binary op left right).Types ctx V Γ (.fresh .any) := by
  unfold binary
  split
  · refine h.types.bind fun _ => (asNumber_types (by simp) (by simp)).settle fun l => ?_
    refine h'.types.bind fun _ => (asNumber_types (by simp) (by simp)).settle fun r => ?_
    exact (arithmetic_types (by simp) (by simp)).any
  · exact h.types.bind fun l => h'.types.bind fun r =>
      applyBinary_types (by simp) (by simp) (by simp) (by simp)

theorem unary_types {op : UnaryOp} (h : operand.GivesValue) :
    (unary op operand).Types ctx V Γ (.fresh .any) := by
  refine h.types.bind fun value => ?_
  split
  · refine (asNumber_types (by simp) (by simp)).settle fun number => ?_
    exact define_types .any (by simp) rfl rfl
  · refine (asNumber_types (by simp) (by simp)).settle fun number => ?_
    exact define_types .any (by simp) rfl rfl
  · exact (asNumber_loose (by simp) (by simp)).any
  · refine (asBoolean_types (by simp)).settle fun truth => ?_
    exact define_types .any (by simp) rfl rfl
  · refine (asObject_types (by simp)).settle fun object => ?_
    exact define_types .any (by simp) rfl rfl
  · exact undefined_types.any

theorem logicalTest_types {op : LogicalOp} {left : Temp} (h : .has left .any ∈ Γ) :
    (logicalTest op left).Types ctx V Γ .test := by
  unfold logicalTest
  split
  · exact (asBoolean_types (by simp [*])).settle fun _ => pure_types (by simp) (by simp)
  · exact (asBoolean_types (by simp [*])).settle fun _ => pure_types (by simp) (by simp)
  · refine (asObject_types (by simp [*])).settle fun value => ?_
    refine (define_types .bool (by simp) rfl rfl).settle fun nullish => ?_
    exact pure_types (by simp) (by simp)

theorem logical_types {op : LogicalOp} {left right : Lower Temp} (h : left.GivesValue)
    (h' : right.GivesValue) : (logical op left right).Types ctx V Γ (.fresh .any) := by
  refine (joinCarrier_types rfl).settle fun carrier => .label fun skip => ?_
  refine .label fun join => h.types.settle fun value => ?_
  refine (logicalTest_types (by simp)).settle fun ⟨expected, condition⟩ => ?_
  refine .branchIf (by simp) <| h'.types.settle fun other => ?_
  refine (storeCarrier_types .object (by simp) (by simp) (.inl rfl)).seq fun _ => ?_
  refine .branch <| .place ?_
  refine (storeCarrier_types .object (by simp) (by simp) (.inl rfl)).seq fun _ => ?_
  exact .place <| loadCarrier_types .object .any (by simp) rfl

theorem condition_types {test : Lower Temp} (h : test.GivesValue) :
    (condition test).Types ctx V Γ (.held .bool) :=
  h.types.settle fun _ => asBoolean_types (by simp)

theorem conditional_types {test consequent alternate : Lower Temp} (h : test.GivesValue)
    (h' : consequent.GivesValue) (h'' : alternate.GivesValue) :
    (conditional test consequent alternate).Types ctx V Γ (.fresh .any) := by
  refine (joinCarrier_types rfl).settle fun carrier => .label fun other => ?_
  refine .label fun finish => (condition_types h).settle fun holds => ?_
  refine .branchIf (by simp) <| h'.types.settle fun chosen => ?_
  refine (storeCarrier_types .object (by simp) (by simp) (.inl rfl)).seq fun _ => ?_
  refine .branch <| .place <| h''.types.settle fun chosen => ?_
  refine (storeCarrier_types .object (by simp) (by simp) (.inl rfl)).seq fun _ => ?_
  exact .place <| loadCarrier_types .object .any (by simp) rfl

theorem update_types {op : UpdateOp} {inFront : Bool} {target : Target}
    (h : Guarantee.target.facts target ⊆ Γ) : (update op inFront target).Types ctx V Γ (.fresh .any) := by
  refine (readTarget_types h).bind fun value => (asNumber_loose (by simp) (by simp)).bind fun old => ?_
  refine (number_types _).bind fun one => ?_
  refine (applyBinary_types (by simp) (by simp) (by simp) (by simp)).bind fun updated => ?_
  refine (writeTarget_types (fun d hd => by simp [h hd]) (by simp) (by simp)).seq fun _ => ?_
  cases inFront with
  | true => exact pure_types (by simp) (by simp)
  | false => exact pure_types (by simp) (by simp)

theorem concatText_types {part : Temp} (h : Guarantee.text.facts before ⊆ Γ)
    (hpart : part ∈ V) (h' : .has part .string ∈ Γ) (hany : .has part .any ∈ Γ) :
    (concatText before part).Types ctx V Γ (.fresh .string) := by
  unfold concatText
  split
  · exact pure_types (by simpa using hpart) (by simp [h', hany])
  · refine define_types .string ?_ rfl rfl
    simpa [Operation.demands, h'] using h (a := .has _ .string) (by simp)

theorem concatConstant_types {text : String}
    (h : Guarantee.text.facts before ⊆ Γ) (hloose : before.toList ⊆ V) :
    (concatConstant before text).Types ctx V Γ .text := by
  unfold concatConstant
  split
  · exact pure_types hloose h
  · refine (string_types text).bind fun part => ?_
    refine (concatText_types (fun d hd => by simp [h hd]) (by simp) (by simp) (by simp)).bind fun t => ?_
    exact pure_types (by simp) (by simp)

theorem concatConstants_types {texts : List String}
    (h : Guarantee.text.facts before ⊆ Γ) (hloose : before.toList ⊆ V) :
    (concatConstants before texts).Types ctx V Γ .text := by
  induction texts generalizing before V Γ with
  | nil => exact pure_types hloose h
  | cons text rest ih =>
    refine (concatConstant_types h hloose).bind fun joined => ih ?_ (by simp)
    cases joined <;> simp

/-! ### Calls -/

/-- The arguments of a call can be lowered, onto an array if one is given. -/
def GivesArguments (each : Option Temp → Lower (List Temp)) : Prop :=
  ∀ ctx array, (each array).Types ctx [] (array.toList.map fun t => .has t .array) .objects

variable {each : Option Temp → Lower (List Temp)}

theorem GivesArguments.plain (h : GivesArguments each) : (each none).Types ctx V Γ .objects :=
  (h ctx none).anywhere

theorem GivesArguments.onto {array : Temp} (h : GivesArguments each)
    (harray : .has array .array ∈ Γ) : (each (some array)).Types ctx V Γ .objects :=
  (h ctx (some array)).mono (List.nil_subset _) (by simpa using harray)

theorem arguments_types {operandHeld : Bool} (h : GivesArguments each) :
    (arguments args operandHeld each).Types ctx V Γ .arguments := by
  refine (forbidSuspend_types _).seq fun _ => ?_
  split
  · refine (define_types .array (by simp) rfl rfl).settle fun array => ?_
    exact (h.onto (by simp)).settle fun _ => pure_types (by simp) (by simp)
  · exact h.plain.settle fun _ => pure_types (by simp) (by simp)

theorem plainArguments_types {spread : Decline} (h : GivesArguments each) :
    (plainArguments args each spread).Types ctx V Γ .objects := by
  unfold plainArguments
  split
  · exact decline_types _
  · exact (forbidSuspend_types _).seq fun _ => h.plain

theorem packed_types {args : Arguments} (h : Guarantee.arguments.facts args ⊆ Γ) :
    (packed args).Types ctx [] Γ ⟨fun _ => [], fun t => [.has t .array]⟩ := by
  cases args with
  | fixed values =>
    exact .weaken (define_types .array (mem_of_objects h) rfl rfl) (fun _ => List.nil_subset _) (by simp)
  | collected array => exact pure_types (by simp) h

/-- An object is allocated, and defined some time later. -/
theorem define_allocated {s s' : Session} {n : Nat} {op : Operation} (hn : n ≤ s.temps.size)
    (hleads : (s.allocate .object).Leads ctx.setting (s.allocate .object).temps.size s')
    (hidle : s'.Idle ⟨s.temps.size⟩) (hplain : op.isOrdinary)
    (hoperands : ∀ d ∈ op.demands, s'.layout.Has d.1 d.2 ∧ d.1 ≠ ⟨s.temps.size⟩) :
    s.Leads ctx.setting n { s' with code := s'.code.push (.define ⟨s.temps.size⟩ op) } ∧
      (∀ t ∈ (Guarantee.fresh .any).loose ⟨s.temps.size⟩, n ≤ t.index) ∧
      ∀ d ∈ (Guarantee.fresh .any).facts ⟨s.temps.size⟩, Session.Holds ctx.setting
        { s' with code := s'.code.push (.define ⟨s.temps.size⟩ op) } d := by
  have hfresh : s.Leads ctx.setting s.temps.size (s.allocate .object) :=
    .single (.allocate rfl) (Session.extends_allocate _)
  have hlast : s'.Leads ctx.setting n { s' with code := s'.code.push (.define ⟨s.temps.size⟩ op) } := by
    refine emit_leads ⟨⟨fun d hd => (hoperands d hd).1, Instr.fitsStorage_of_isOrdinary
      (i := .define ⟨s.temps.size⟩ op) hplain⟩, fun t ht => ?_,
      Instr.founded_of_isOrdinary (i := .define ⟨s.temps.size⟩ op) hplain⟩ rfl
    cases ht
    refine ⟨hidle, fun huse => ?_⟩
    obtain ⟨shape, hshape⟩ := Instr.exists_demand huse
    exact (hoperands _ hshape).2 rfl
  have hobject := layout_allocate s .object
  have hkept : s'.layout.temp ⟨s.temps.size⟩ = some .object :=
    hleads.growth.holds (w := ctx.setting) (d := .exact _ .object) hobject
      (.inr (Session.lt_size_of_temp hobject))
  refine ⟨(hfresh.mono hn).trans ((hleads.mono (hn.trans hfresh.growth.size_le)).trans hlast),
    by simpa using hn, fun d hd => ?_⟩
  simp only [Guarantee.fresh, List.mem_cons, or_self, List.not_mem_nil, or_false] at hd
  subst hd
  exact ⟨.object, hkept, rfl⟩

/-- A temp stays idle while another one is defined. -/
theorem idle_define {s : Session} {t : Temp} {storage : Storage} {op : Operation} (h : s.Idle t)
    (hop : t ∉ op.uses) :
    Session.Idle { s.allocate storage with code := s.code.push (.define ⟨s.temps.size⟩ op) } t := by
  refine ⟨?_, fun i hi => ?_⟩
  · have := h.1
    simp only [Session.allocate, Array.size_push]
    omega
  · rcases Array.mem_push.1 hi with hi | rfl
    · exact h.2 i hi
    · refine ⟨hop, fun hresult => ?_⟩
      cases hresult
      exact absurd h.1 (Nat.lt_irrefl _)

/-- The result of a call is idle while its arguments are packed. -/
theorem emitCall_types {args : Arguments} {fixed : List Temp → Operation}
    {withArray : Temp → Operation} (others : List Temp) (hargs : Guarantee.arguments.facts args ⊆ Γ)
    (hothers : ∀ t ∈ others, .has t .object ∈ Γ)
    (hfixed : ∀ ts, (fixed ts).isOrdinary = true ∧ (fixed ts).demands = objects (others ++ ts))
    (harray : ∀ t, (withArray t).isOrdinary = true ∧
      (withArray t).demands = objects others ++ [(t, .array)]) :
    (emitCall args fixed withArray).Types ctx V Γ (.fresh .any) := by
  intro s a s' n hrun hready hn hV hΓ
  have hfresh : s.Leads ctx.setting s.temps.size (s.allocate .object) :=
    .single (.allocate rfl) (Session.extends_allocate _)
  have hready₁ := hready.mono hfresh
  have hidle := idle_allocate hready.sound .object
  have hΓ₁ : ∀ d ∈ Γ, (s.allocate .object).Holds ctx.setting d := fun d hd =>
    hfresh.growth.holds (hΓ d hd).1 (.inr (hΓ d hd).1.below)
  have hne : ∀ {t shape}, .has t shape ∈ Γ → t ≠ ⟨s.temps.size⟩ := by
    rintro t shape ht rfl
    exact absurd (Session.lt_size_of_has (hΓ _ ht).1) (Nat.lt_irrefl _)
  cases args with
  | collected array =>
    cases hrun
    refine define_allocated hn (.refl _ _ _) hidle (harray array).1 fun d hd => ?_
    have hmem : .has d.1 d.2 ∈ Γ := by
      rw [(harray array).2] at hd
      rcases List.mem_append.1 hd with hd | hd
      · obtain ⟨t, ht, rfl⟩ := List.mem_map.1 hd
        exact hothers t ht
      · obtain rfl := List.mem_singleton.1 hd
        exact hargs (by simp)
    exact ⟨hΓ₁ _ hmem, hne hmem⟩
  | fixed values =>
    have hvalues : ∀ t ∈ values, .has t .object ∈ Γ := fun t ht => hargs (List.mem_map_of_mem ht)
    obtain ⟨_, s₁, halloc, hrun⟩ := bind_ok hrun
    cases halloc
    replace hrun := read_ok hrun
    dsimp only at hrun
    split at hrun
    · cases hrun
      refine define_allocated hn (.refl _ _ _) hidle (hfixed values).1 fun d hd => ?_
      rw [(hfixed values).2] at hd
      obtain ⟨t, ht, rfl⟩ := List.mem_map.1 hd
      have hmem : .has t .object ∈ Γ := by
        rcases List.mem_append.1 ht with ht | ht
        · exact hothers t ht
        · exact hvalues t ht
      exact ⟨hΓ₁ _ hmem, hne hmem⟩
    · obtain ⟨array, s₂, hpack, hrest⟩ := bind_ok hrun
      cases hrest
      obtain ⟨hleads, -, hfacts⟩ := packed_types hargs hpack hready₁ le_rfl (by simp) fun d hd =>
        ⟨hΓ₁ d hd, .inr (hΓ₁ d hd).below⟩
      have hidle₂ : s₂.Idle ⟨s.temps.size⟩ := by
        cases hpack
        exact idle_define hidle fun huse => hne (hvalues _ huse) rfl
      have harray_ne : array ≠ ⟨s.temps.size⟩ := by
        cases hpack
        simp
      refine define_allocated hn hleads hidle₂ (harray array).1 fun d hd => ?_
      rw [(harray array).2] at hd
      rcases List.mem_append.1 hd with hd | hd
      · obtain ⟨t, ht, rfl⟩ := List.mem_map.1 hd
        have hmem := hΓ₁ _ (hothers t ht)
        exact ⟨hleads.growth.holds hmem (.inr hmem.below), hne (hothers t ht)⟩
      · obtain rfl := List.mem_singleton.1 hd
        exact ⟨hfacts (.has array .array) (by simp), harray_ne⟩

theorem callValue_types {function : Temp} {args : Arguments} (h : .has function .any ∈ Γ)
    (hargs : Guarantee.arguments.facts args ⊆ Γ) : (callValue function args).Types ctx V Γ (.fresh .any) := by
  refine (asObject_types (by simp [*])).settle fun function => currentScopes_types.settle fun scopes => ?_
  exact emitCall_types [function, scopes] (fun d hd => by simp [hargs hd]) (by simp)
    (fun _ => ⟨rfl, rfl⟩) fun _ => ⟨rfl, rfl⟩

theorem callMethodValue_types {function receiver : Temp} {args : Arguments}
    (h : .has function .object ∈ Γ) (h' : .has receiver .object ∈ Γ)
    (hargs : Guarantee.arguments.facts args ⊆ Γ) :
    (callMethodValue function receiver args).Types ctx V Γ (.fresh .any) := by
  refine currentScopes_types.settle fun scopes => ?_
  refine (packed_types fun d hd => by simp [hargs hd]).settle fun array => ?_
  exact define_types .any (by simp [*]) rfl rfl

theorem callDynamicMember_types {name : String} {args : Arguments}
    (h : .has receiver .any ∈ Γ) (hargs : Guarantee.arguments.facts args ⊆ Γ) :
    (callDynamicMember receiver name args).Types ctx V Γ (.fresh .any) := by
  refine (asObject_types (by simp [*])).settle fun receiver => ?_
  exact emitCall_types [receiver] (fun d hd => by simp [hargs hd]) (by simp) (fun _ => ⟨rfl, rfl⟩)
    fun _ => ⟨rfl, rfl⟩

/-- A method that is bound early belongs to the class of the receiver, which has no subclasses. -/
theorem boundMethod?_types {name : String} {arity : Nat}
    (h : .has receiver .any ∈ Γ) : (boundMethod? receiver name arity).Types ctx V Γ
      ⟨fun _ => [], fun found => found.toList.flatMap fun (_, declaring, method) =>
        [.bound receiver name arity declaring method, .has receiver .object]⟩ := by
  refine read_types ((storageOf_exact (by simp [*])).settle fun storage => ?_)
  split
  · exact pure_types (by simp) (by simp)
  rename_i className hclass
  split
  · exact pure_types (by simp) (by simp)
  rename_i hsubclasses
  refine pure_holds (by simp) fun s _ hΓ d hd => ?_
  have hexact := hΓ (.exact receiver storage) (by simp)
  cases hmethod : ctx.registry.instanceMethod? className name arity with
  | none =>
    rw [hmethod] at hd
    cases hd
  | some found =>
    rw [hmethod] at hd
    simp only [Option.map_some, Option.toList_some, List.flatMap_cons, List.flatMap_nil,
      List.append_nil, List.mem_cons, List.not_mem_nil, or_false] at hd
    rcases hd with rfl | rfl
    · refine ⟨className, ?_, eq_false_of_ne_true hsubclasses, hmethod⟩
      rw [show s.layout.temp receiver = some storage from hexact]
      exact hclass
    · refine ⟨storage, hexact, ?_⟩
      obtain ⟨kind, ty⟩ := storage
      cases kind <;> simp_all [Storage.className?, Shape.admits, Storage.isObjectShaped]

theorem callMember_types {name : String} {args : Arguments}
    (h : .has receiver .any ∈ Γ) (hargs : Guarantee.arguments.facts args ⊆ Γ) :
    (callMember receiver name args).Types ctx V Γ (.fresh .any) := by
  unfold callMember
  split
  · exact callDynamicMember_types h hargs
  rename_i values
  refine (boundMethod?_types h).settle fun found => ?_
  split
  · exact callDynamicMember_types (by simp [h]) fun d hd => by simp [hargs hd]
  rename_i className declaring method
  refine define_raw_types ?_ fun s _ hΓ => ⟨fun d hd => ?_, trivial, rfl, declaring, method, ?_, rfl, rfl⟩
  · split <;> rfl
  · obtain ⟨t, ht, rfl⟩ := List.mem_map.1 hd
    rcases List.mem_cons.1 ht with rfl | ht
    · exact hΓ (.has t .object) (by simp)
    · exact hΓ _ (List.mem_append_right _ (hargs (List.mem_map_of_mem ht)))
  · exact (Session.extends_allocate (n := 0) _).holds
      (hΓ (.bound receiver name values.length declaring method) (by simp)) (.inl rfl)

theorem staticMember?_demands {registry : Registry} {object : Expr} {name : String} {arity : Nat}
    {operation : List Temp → Operation} (h : staticMember? registry object name arity = some operation)
    (ts : List Temp) : (operation ts).demands = objects ts ∧ (operation ts).isOrdinary = true := by
  unfold staticMember? at h
  split at h
  · cases h
    exact ⟨rfl, rfl⟩
  · obtain ⟨method, -, rfl⟩ := Option.map_eq_some_iff.1 h
    exact ⟨rfl, rfl⟩
  · cases h

/-- An operation on objects. -/
theorem define_objects_types {storage : Storage} {op : Operation} {ts : List Temp}
    (hop : op.demands = objects ts) (hts : Guarantee.objects.facts ts ⊆ Γ)
    (hplain : op.isOrdinary) (hknown : storage.isKnown) :
    (define storage op).Types ctx V Γ (.fresh .any) :=
  define_types .any (hop ▸ mem_of_objects hts) hknown hplain

theorem memberCall_types {object : Expr} {name : String}
    {receiver : Lower Temp} (h : receiver.GivesValue) (hargs : GivesArguments each) :
    (memberCall object name args receiver each).Types ctx V Γ (.fresh .any) := by
  refine read_types ?_
  dsimp only
  split
  · rename_i operation hbound
    split at hbound
    · cases hbound
    refine (forbidSuspend_types _).seq fun _ => hargs.plain.settle fun ts => ?_
    obtain ⟨hop, hplain⟩ := staticMember?_demands hbound ts
    exact define_objects_types hop (List.subset_append_left _ _) hplain rfl
  · refine h.types.settle fun receiver => (arguments_types hargs).settle fun args => ?_
    exact callMember_types (by simp) (by simp)

/-- A known callee can be called as soon as the arguments are there. -/
theorem knownCallee?_finds (callee : Expr) : (knownCallee? callee).Finds ctx fun known =>
    ∀ call ∈ known, ∀ ts, (call ts).Types ctx [] (Guarantee.objects.facts ts) (.fresh .any) := by
  unfold knownCallee?
  split
  · refine (requireBinding_finds _).bind fun b _ => ?_
    split
    · refine pure_finds fun call hcall ts => ?_
      obtain rfl := Option.some.inj hcall
      refine (calleeScopes_types _).settle fun scopes => define_objects_types rfl ?_ rfl rfl
      simp
    · exact pure_finds (by simp)
  · refine pure_finds fun call hcall ts => ?_
    obtain rfl := Option.some.inj hcall
    exact define_objects_types rfl (List.Subset.refl _) rfl rfl
  · exact pure_finds (by simp)

theorem plainCall_types {callee : Expr} {function : Lower Temp}
    (h : function.GivesValue) (hargs : GivesArguments each) :
    (plainCall callee args function each).Types ctx V Γ (.fresh .any) := by
  refine (knownCallee?_finds callee).types fun known hknown => ?_
  split
  · rename_i call _
    refine (forbidSuspend_types _).seq fun _ => hargs.plain.settle fun ts => ?_
    exact (hknown call rfl ts).mono (List.Subset.refl _) (List.subset_append_left _ _)
  · refine h.types.settle fun function => (arguments_types hargs).settle fun args => ?_
    exact callValue_types (by simp) (by simp)

theorem optionalMethodCall_types {name : String} {object : Lower Temp} {args : Lower Arguments}
    (h : object.GivesValue) (hargs : ∀ Γ, args.Types ctx [] Γ .arguments) :
    (optionalMethodCall name object args).Types ctx V Γ (.fresh .any) := by
  refine h.object fun receiver => ?_
  refine (define_types .object (by simp) rfl rfl).settle fun method => ?_
  refine optionally_types (by simp) ((hargs _).settle fun args => ?_)
  exact callMethodValue_types (by simp) (by simp) (by simp)

theorem optionalCall_types {callee : Lower Temp} {args : Lower Arguments} (h : callee.GivesValue)
    (hargs : ∀ Γ, args.Types ctx [] Γ .arguments) :
    (optionalCall callee args).Types ctx V Γ (.fresh .any) := by
  refine h.types.settle fun function => optionally_types (by simp) ((hargs _).settle fun args => ?_)
  exact callValue_types (by simp) (by simp)

/-- The flag is looked at, and then one of two instructions is appended that depend on it. -/
theorem thisValue_types : thisValue.Types ctx V Γ (.fresh .any) := by
  intro s a s' n hrun hready hn hV hΓ
  replace hrun := get_ok (read_ok hrun)
  split at hrun
  · rename_i hearly
    have hcalled : s.superCalled = false := by simpa using (Bool.and_eq_true_iff.1 hearly).2
    obtain ⟨_, s₂, hthrow, hlast⟩ := bind_ok hrun
    obtain ⟨t, s₁, hdefine, hthrow⟩ := bind_ok hthrow
    cases hdefine
    obtain ⟨hleads, -, hfacts⟩ := define_run .object (.newError .referenceError _)
      (rfl : Shape.object.admits _ = true) hready hn nofun trivial hcalled
    have hrest : (do throwValue ⟨s.temps.size⟩; undefined).Types ctx []
        ((Guarantee.fresh .object).facts ⟨s.temps.size⟩) (.fresh .any) :=
      (throwValue_types (by simp)).seq fun _ => undefined_types.any
    obtain ⟨hleads', hloose, hresult⟩ := hrest ((bind_run hthrow).trans hlast)
      (hready.mono hleads) le_rfl (by simp) fun d hd => ⟨hfacts d hd, .inr (hfacts d hd).below⟩
    have hle := hn.trans hleads.growth.size_le
    exact ⟨hleads.trans (hleads'.mono hle), fun t ht => hle.trans (hloose t ht), hresult⟩
  · rename_i hcalled
    cases hrun
    refine define_run _ .loadThis ?_ hready hn nofun trivial fun hderived => ?_
    · split <;> rfl
    · have hderived : ctx.function.isDerivedConstructor = true := hderived
      show s.superCalled = true
      simpa [hderived] using hcalled

/-- The flag is set together with the call. -/
theorem callSuper_types {parent : String} {values : List Temp} {k : Lower Temp} {R : Guarantee Temp}
    (h : ∀ d ∈ (Effect.callSuper parent values).demands, .has d.1 d.2 ∈ Γ) (hk : k.Types ctx V Γ R) :
    (do perform (.callSuper parent values)
        modify fun s => { s with superCalled := true }
        k : Lower Temp).Types ctx V Γ R := by
  have hcall : (do
      perform (.callSuper parent values)
      modify fun s => { s with superCalled := true } : Lower Unit).Types ctx V Γ .nothing := by
    intro s a s' n hrun hready hn hV hΓ
    cases hrun
    exact ⟨.single (.emit (i := .perform (.callSuper parent values))
      ⟨⟨fun d hd => (hΓ _ (h d hd)).1, trivial⟩, nofun, trivial⟩) (.of_same rfl rfl rfl rfl),
      by simp, by simp⟩
  simpa only [bind_assoc] using hcall.seq fun _ => hk

theorem superCall_types (h : GivesArguments each) :
    (superCall args each).Types ctx V Γ (.fresh .any) := by
  refine read_types ?_
  split
  · exact decline_types _
  refine (plainArguments_types h).settle fun values => ?_
  exact callSuper_types (mem_of_objects (List.subset_append_left _ _)) thisValue_types

theorem padding_types (n : Nat) : (padding n).Types ctx V Γ .objects := by
  induction n generalizing V Γ with
  | zero => exact pure_types (by simp) (by simp)
  | succ n ih =>
    refine undefined_types.settle fun value => ih.settle fun rest => pure_types (by simp) ?_
    simp

theorem newClass_types {className : String} (h : GivesArguments each) :
    (newClass className args each).Types ctx V Γ (.fresh .any) := by
  refine read_types ?_
  split
  · exact decline_types _
  split
  · exact decline_types _
  refine (plainArguments_types h).settle fun values => (padding_types _).settle fun missing => ?_
  refine define_raw_types rfl fun s _ hΓ => ⟨fun d hd => hΓ _ (mem_of_objects ?_ d hd), ?_, trivial⟩
  · simp
  · exact ⟨.object, layout_allocate s .object, rfl⟩

theorem newIntrinsic_types {name : String} (h : GivesArguments each) :
    (newIntrinsic name args each).Types ctx V Γ (.fresh .any) :=
  (plainArguments_types h).settle fun _ => define_objects_types rfl (by simp) rfl rfl

theorem newValue_types {callee : Lower Temp} {args : Lower Arguments} (h : callee.GivesValue)
    (hargs : ∀ Γ, args.Types ctx [] Γ .arguments) : (newValue callee args).Types ctx V Γ (.fresh .any) := by
  refine h.object fun callee => ?_
  refine (hargs _).settle fun args => (packed_types (by simp)).settle fun array => ?_
  exact define_types .any (by simp) rfl rfl

/-! ### Suspension -/

/-- A resume point for rejections, and the field in which the exception is found. -/
@[simp] def rejectFacts (reject : Option RejectRoute) : List Fact :=
  reject.toList.flatMap fun route => [.point route.state, .field route.pending]

theorem rejectRoute?_types (kind : SuspendKind) :
    (rejectRoute? kind).Types ctx V Γ ⟨fun _ => [], rejectFacts⟩ := by
  refine read_types ?_
  split
  · rename_i route hroute
    have hframe := List.mem_of_find?_eq_some hroute
    split
    · exact pure_types (by simp) (by simp)
    rename_i state hstate
    refine .intro fun _ hready _ => .choose (fun _ : Unit => .point state) (fun _ => rfl)
      (fun _ hready _ => ⟨(), (hready.routes route hframe).2 state hstate⟩) fun _ => ?_
    obtain ⟨k, hfields⟩ := hready.numbered route hframe
    have hname : StateName route.fields.exception := hfields ▸ .exception k
    refine (stateField_types hname (hready.routes route hframe).1).settle fun pending => ?_
    exact pure_types (by simp) (by simp)
  · exact pure_types (by simp) (by simp)

/-- The result of a suspension is idle until the suspension itself is emitted. -/
theorem suspend_types {kind : SuspendKind} {value : Temp} (hres : ctx.isResumable)
    (h : .has value .any ∈ Γ) : (suspend kind value).Types ctx V Γ (.fresh .any) := by
  refine read_types ?_
  split
  · exact decline_types _
  refine (asObject_types (by simp [*])).settle fun value => (rejectRoute?_types kind).settle fun reject => ?_
  refine .label fun label => ?_
  intro s a s' n hrun hready hn hV hΓ
  have hfresh : s.Leads ctx.setting s.temps.size (s.allocate .object) :=
    .single (.allocate rfl) (Session.extends_allocate _)
  have hΓ₁ : ∀ d ∈ rejectFacts reject ++ ((Guarantee.held .object).facts value ++ Γ),
      (s.allocate .object).Holds ctx.setting d := fun d hd =>
    hfresh.growth.holds (hΓ d hd).1 (.inr (hΓ d hd).1.below)
  have hvalue := hΓ₁ (.has value .object) (by simp)
  have hne : (⟨s.temps.size⟩ : Temp) ≠ value := by
    rintro rfl
    exact absurd (Session.lt_size_of_has (hΓ (.has _ .object) (by simp)).1) (Nat.lt_irrefl _)
  have hreject : ∀ route, reject = some route →
      (s.allocate .object).Holds ctx.setting (.point route.state) ∧
        (s.allocate .object).Holds ctx.setting (.field route.pending) := by
    rintro route rfl
    exact ⟨hΓ₁ _ (by simp), hΓ₁ _ (by simp)⟩
  have hstep : Session.Step ctx.setting (s.allocate .object)
      ((s.allocate .object).suspend kind value label ⟨s.temps.size⟩ reject) :=
    .suspend hres hvalue (idle_allocate hready.sound .object) hne hreject
  have hrun' : a = ⟨s.temps.size⟩ ∧
      s' = (s.allocate .object).suspend kind value label ⟨s.temps.size⟩ reject := by
    cases kind <;> cases hrun <;> exact ⟨rfl, rfl⟩
  obtain ⟨rfl, rfl⟩ := hrun'
  refine ⟨(hfresh.mono hn).trans (.single hstep Session.extends_suspend), by simpa using hn, fun d hd => ?_⟩
  simp only [Guarantee.fresh, List.mem_cons, or_self, List.not_mem_nil, or_false] at hd
  subst hd
  exact ⟨.object, layout_allocate s .object, rfl⟩

theorem isResumable_of_isAsync (h : ctx.function.isAsync) : ctx.isResumable = true := by
  simp [Context.isResumable, Function.isResumable, h]

theorem isResumable_of_isGenerator (h : ctx.function.isGenerator) : ctx.isResumable = true := by
  simp [Context.isResumable, Function.isResumable, h]

theorem await_types (h : operand.GivesValue) :
    (await operand).Types ctx V Γ (.fresh .any) := by
  refine read_types ?_
  split
  · exact decline_types _
  · rename_i hasync
    have hres : ctx.isResumable = true := isResumable_of_isAsync (by simpa using hasync)
    exact h.types.settle fun value => suspend_types ‹_› (by simp)

/-- A request of the driver is taken up by a step for any value. -/
theorem takeRequest_types {flag value : StateField} {proceed : Temp → Lower Unit}
    (hres : ctx.isResumable)
    (h : ∀ t Γ, .has t .any ∈ Γ → (proceed t).Types ctx [] Γ .nothing) :
    (takeRequest flag value proceed).Types ctx V Γ .nothing := by
  refine .label fun otherwise => (loadState_types .bool (.fixed _) ‹_› rfl).settle fun requested => ?_
  refine .branchIf (by simp) <| (setFlag_types (.fixed _) _ ‹_›).seq fun _ => ?_
  refine (loadState_types .object (.fixed _) ‹_› rfl).settle fun t => ?_
  exact (h t _ (by simp)).seq fun _ => place_types _

theorem yieldValue_types {value : Temp} (hres : ctx.isResumable) (h : .has value .any ∈ Γ) :
    (yieldValue value).Types ctx V Γ (.fresh .any) := by
  refine (suspend_types ‹_› (by simp [*])).bind fun sent => ?_
  refine (takeRequest_types hres fun _ _ h => returnValue_types (by simp [*])).seq fun _ => ?_
  refine (takeRequest_types hres fun _ _ h => throwValue_types (by simp [*])).seq fun _ => ?_
  exact pure_types (by simp) (by simp)

theorem setDelegateMode_types (mode : Nat) (hres : ctx.isResumable) :
    (setDelegateMode mode).Types ctx V Γ .nothing :=
  (number_types _).settle fun _ => storeState_types (.fixed _) ‹_› (by simp)

theorem clearDelegate_types (hres : ctx.isResumable) : clearDelegate.Types ctx V Γ .nothing :=
  (setDelegateMode_types 0 ‹_›).seq fun _ => clearState_types (.fixed _) ‹_›

theorem delegateToIterable_types {operand : Temp} {result : Carrier} (hres : ctx.isResumable)
    (h : .has operand .object ∈ Γ) (hresult : .carrier result .object ∈ Γ) :
    (delegateToIterable operand result).Types ctx V Γ .nothing := by
  refine .label fun head => .label fun exhausted => ?_
  refine (define_types .object (by simp [*]) rfl rfl).settle fun items => ?_
  refine (setDelegateMode_types 1 ‹_›).seq fun _ => (storeState_types (.fixed _) ‹_› (by simp)).seq fun _ => ?_
  refine (number_types _).settle fun zero => (storeState_types (.fixed _) ‹_› (by simp)).seq fun _ => ?_
  refine (define_types .double (by simp) rfl rfl).settle fun length => ?_
  refine (storeState_types (.fixed _) ‹_› (by simp)).seq fun _ => .place ?_
  refine (loadState_types .double (.fixed _) ‹_› rfl).settle fun index => ?_
  refine (loadState_types .double (.fixed _) ‹_› rfl).settle fun bound => ?_
  refine (define_types .bool (by simp) rfl rfl).settle fun more => ?_
  refine .branchIf (by simp) <| (loadState_types .array (.fixed _) ‹_› rfl).settle fun array => ?_
  refine (define_types .object (by simp) rfl rfl).settle fun item => ?_
  refine (number_types _).settle fun one => ?_
  refine (define_types .double (by simp) rfl rfl).settle fun next => ?_
  refine (storeState_types (.fixed _) ‹_› (by simp)).seq fun _ => ?_
  refine (yieldValue_types ‹_› (by simp)).settle fun _ => .branch ?_
  refine .place <| (clearDelegate_types ‹_›).seq fun _ => ?_
  exact undefined_types.settle fun _ => storeCarrier_types .object (by simp [*]) (by simp) (.inl rfl)

theorem forward_types {step wasReturn : Carrier} {method : String} {argument : StateField}
    {request : Option StateField} {returning : Bool} (hres : ctx.isResumable)
    (hstep : .carrier step .object ∈ Γ) (hwas : .carrier wasReturn .bool ∈ Γ) :
    (forward step wasReturn method argument request returning).Types ctx V Γ .nothing := by
  refine (bool_types returning).settle fun flag => ?_
  refine (storeCarrier_types .bool (by simp [*]) (by simp) (.inl rfl)).seq fun _ => ?_
  have hrest : (do
      let value ← loadState argument.name .object
      let array ← define .array (.packArguments [value])
      let inner ← loadState StateField.delegateTarget.name .object
      let response ← define .object (.callMember inner method array)
      storeCarrier step response : Lower Unit).Types ctx []
        ((Guarantee.fresh .bool).facts flag ++ Γ) .nothing := by
    refine (loadState_types .object (.fixed _) ‹_› rfl).settle fun value => ?_
    refine (define_types .array (by simp) rfl rfl).settle fun array => ?_
    refine (loadState_types .object (.fixed _) ‹_› rfl).settle fun inner => ?_
    refine (define_types .object (by simp) rfl rfl).settle fun response => ?_
    exact storeCarrier_types .object (by simp [*]) (by simp) (.inl rfl)
  cases request with
  | none => exact hrest
  | some request => exact (setFlag_types (.fixed _) _ ‹_›).seq fun _ => hrest

theorem delegateToGenerator_types {operand : Temp} {result : Carrier} (hres : ctx.isResumable)
    (h : .has operand .any ∈ Γ) (hresult : .carrier result .object ∈ Γ) :
    (delegateToGenerator operand result).Types ctx V Γ .nothing := by
  refine .label fun next => .label fun callReturn => ?_
  refine .label fun callThrow => .label fun afterCall => ?_
  refine .label fun finished => .label fun completed => ?_
  refine (joinCarrier_types rfl).settle fun step => (joinCarrier_types rfl).settle fun wasReturn => ?_
  refine (setDelegateMode_types 2 ‹_›).seq fun _ => (storeState_types (.fixed _) ‹_› (by simp [*])).seq fun _ => ?_
  refine .place <| (loadState_types .bool (.fixed _) ‹_› rfl).settle fun hasReturn => ?_
  refine .branchIf (by simp) <| (loadState_types .bool (.fixed _) ‹_› rfl).settle fun hasException => ?_
  refine .branchIf (by simp) <| (forward_types ‹_› (by simp) (by simp)).seq fun _ => ?_
  refine .branch <| .place ?_
  refine (forward_types ‹_› (by simp) (by simp)).seq fun _ => .branch ?_
  refine .place <| (forward_types ‹_› (by simp) (by simp)).seq fun _ => ?_
  refine .place <| (loadCarrier_types .object .object (by simp) rfl).settle fun response => ?_
  refine (define_types .object (by simp) rfl rfl).settle fun isDone => ?_
  refine (asBoolean_types (by simp)).settle fun done => .branchIf (by simp) ?_
  refine (define_types .object (by simp) rfl rfl).settle fun value => ?_
  refine (suspend_types ‹_› (by simp)).settle fun _ => .branch ?_
  refine .place ?_
  refine (define_types .object (by simp) rfl rfl).settle fun final => ?_
  refine (clearDelegate_types ‹_›).seq fun _ => ?_
  refine (loadCarrier_types .bool .bool (by simp) rfl).settle fun returned => ?_
  refine .branchIf (by simp) <| (returnValue_types (by simp)).seq fun _ => ?_
  exact .place <| storeCarrier_types .object (by simp [*]) (by simp) (.inl rfl)

theorem delegate_types {operand : Temp} (hres : ctx.isResumable) (h : .has operand .any ∈ Γ) :
    (delegate operand).Types ctx V Γ (.fresh .any) := by
  refine (asObject_types (by simp [*])).settle fun operand => (joinCarrier_types rfl).settle fun result => ?_
  refine .label fun generatorPath => .label fun done => ?_
  refine (define_types .bool (by simp) rfl rfl).settle fun isGenerator => ?_
  refine .branchIf (by simp) ?_
  refine (delegateToIterable_types ‹_› (by simp) (by simp)).seq fun _ => .branch ?_
  refine .place ?_
  refine (delegateToGenerator_types ‹_› (by simp) (by simp)).seq fun _ => ?_
  exact .place <| loadCarrier_types .object .any (by simp) rfl

theorem yieldExpr_types {delegates : Bool} (h : operand.GivesValue) :
    (yieldExpr operand delegates).Types ctx V Γ (.fresh .any) := by
  refine read_types ?_
  split
  · exact decline_types _
  rename_i hgenerator
  have hres : ctx.isResumable = true := isResumable_of_isGenerator (by simpa using hgenerator)
  refine h.types.settle fun value => ?_
  split
  · exact delegate_types ‹_› (by simp)
  · exact yieldValue_types ‹_› (by simp)

end Lower

end ScriptLowering
