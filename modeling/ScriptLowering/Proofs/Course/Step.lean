import ScriptLowering.Proofs.Course.Judgement

/-!
# Steps of the lowering

One lemma for each step of the lowering that is no recursion over the source.
-/

namespace ScriptLowering

/-- The shape of the values that are kept in a place of the storage. -/
def Storage.shape (storage : Storage) : Shape :=
  if storage.isUnboxedDouble then .double else if storage.isUnboxedBool then .bool else .object

/-- A value of the shape of a slot is bare exactly when the slot is. -/
theorem Storage.same_of_shape {held stored : Storage} (h : held.shape.admits stored) :
    stored.isUnboxedDouble = held.isUnboxedDouble ∧ stored.isUnboxedBool = held.isUnboxedBool := by
  obtain ⟨kind, ty⟩ := stored
  unfold shape at h
  split at h
  · rename_i hdouble
    cases kind <;> cases ty <;> simp_all [Shape.admits, isUnboxedDouble, isUnboxedBool, isUnboxed]
  split at h
  · rename_i hdouble hbool
    cases kind <;> cases ty <;> simp_all [Shape.admits, isUnboxedDouble, isUnboxedBool, isUnboxed]
  · rename_i hdouble hbool
    rw [Bool.not_eq_true] at hdouble hbool
    rw [hdouble, hbool]
    cases kind <;> simp [Shape.admits, isObjectShaped, isUnboxedDouble, isUnboxedBool, isUnboxed] at h ⊢

namespace Guarantee

/-- The storage that was looked up. -/
@[simp] def exactly (t : Temp) : Guarantee Storage := ⟨fun _ => [], fun storage => [.exact t storage]⟩

@[simp] def slot (storage : Storage) : Guarantee Slot := ⟨fun _ => [], fun slot => [.slot slot storage]⟩

@[simp] def carrier (storage : Storage) : Guarantee Carrier :=
  ⟨fun _ => [], fun c => [.carrier c storage]⟩

/-- A state field in use. -/
@[simp] def field : Guarantee FieldRef := ⟨fun _ => [], fun field => [.field field]⟩

/-- Where a binding lives. -/
@[simp] def home : Guarantee Placement := ⟨fun _ => [], fun home => [.home home]⟩

/-- Temps that are all objects. -/
@[simp] def objects : Guarantee (List Temp) :=
  ⟨fun _ => [], fun ts => ts.map fun t => .has t .object⟩

/-- What is known about the source of a capture object. -/
@[simp] def sourceFacts (source : ScopeSource) : List Fact :=
  source.temp?.toList.map fun t => .has t .object

/-- A source of a capture object. -/
@[simp] def source : Guarantee ScopeSource := ⟨fun _ => [], sourceFacts⟩

/-- The shared exit of the function. -/
@[simp] def exit : Guarantee ReturnEpilogue := ⟨fun _ => [], fun e => [.slot e.slot .object]⟩

end Guarantee

namespace Lower

attribute [local simp] Operation.demands Effect.demands Instr.demands Coercion.demand objects

variable {ctx : Context} {V : List Temp} {Γ : List Fact}
variable {id : BindingId} {carrier : Carrier} {field : FieldRef} {route : FinallyRoute}
  {m : Lower Temp} {home : Placement} {scope : Scope} {s : Session} {shape : Shape} {slot : Slot}
  {storage : Storage} {hint name : String} {t value : Temp} {α : Type}

theorem Types.held (h : m.Types ctx V Γ (.fresh shape)) :
    m.Types ctx V Γ (.held shape) :=
  h.weaken (fun _ => List.nil_subset _) fun _ => List.Subset.refl _

theorem Types.any (h : m.Types ctx V Γ (.fresh shape)) :
    m.Types ctx V Γ (.fresh .any) :=
  h.weaken (fun _ => List.Subset.refl _) (by simp)

/-- The computation gives a value, wherever it runs. -/
def GivesValue (m : Lower Temp) : Prop :=
  ∀ ctx, m.Types ctx [] [] (.fresh .any)

/-- The computation runs anywhere. -/
def Proceeds (m : Lower Unit) : Prop :=
  ∀ ctx, m.Types ctx [] [] .nothing

/-- The computation takes up a value, wherever it runs. -/
def TakesValue (f : Temp → Lower Unit) : Prop :=
  ∀ ctx t, (f t).Types ctx [t] [.has t .any] .nothing

theorem GivesValue.types (h : m.GivesValue) : m.Types ctx V Γ (.fresh .any) :=
  (h ctx).anywhere

theorem Proceeds.types {m : Lower Unit} (h : m.Proceeds) : m.Types ctx V Γ .nothing :=
  (h ctx).anywhere

theorem TakesValue.types {f : Temp → Lower Unit} (h : TakesValue f) (ht : t ∈ V)
    (hany : .has t .any ∈ Γ) : (f t).Types ctx V Γ .nothing :=
  (h ctx t).mono (by simpa using ht) (by simpa using hany)

/-! ### Coercions -/

theorem number_types (value : Binary64) : (number value).Types ctx V Γ (.fresh .double) :=
  define_types .double (by simp) rfl rfl

theorem bool_types (value : Bool) : (bool value).Types ctx V Γ (.fresh .bool) :=
  define_types .bool (by simp) rfl rfl

theorem string_types (value : String) : (string value).Types ctx V Γ (.fresh .string) :=
  define_types .string (by simp) rfl rfl

theorem null_types : null.Types ctx V Γ (.fresh .object) :=
  define_types .object (by simp) rfl rfl

theorem undefined_types : undefined.Types ctx V Γ (.fresh .object) :=
  define_types .object (by simp) rfl rfl

theorem storageOf_types (t : Temp) : (storageOf t).Types ctx V Γ .nothing :=
  .aside fun _ _ _ hrun => by
    cases hrun
    exact ⟨rfl, rfl, rfl, rfl, rfl, rfl, rfl, rfl⟩

theorem storageOf_run (h : s.layout.temp t = some storage) : storageOf t ctx s = .ok storage s := by
  have : storageOf t ctx s = .ok (s.temps[t.index]?.getD .unknown) s := rfl
  rw [this, ← Session.layout_temp, h]
  rfl

theorem storageOf_exact (h : .has t .any ∈ Γ) :
    (storageOf t).Types ctx V Γ (.exactly t) := by
  intro s a s' n hrun hready hn hV hΓ
  obtain ⟨storage, hstorage, -⟩ := (hΓ _ h).1
  rw [storageOf_run hstorage] at hrun
  cases hrun
  refine ⟨.refl _ _ _, by simp, fun d hd => ?_⟩
  obtain rfl := List.mem_singleton.1 hd
  exact hstorage

/-- The storage of a temp is recorded. -/
theorem isKnown_of_exact (hready : ctx.Ready s)
    (h : s.Holds ctx.setting (.exact t storage)) : storage.isKnown = true :=
  hready.sound.known _ (Array.mem_of_getElem? h)

theorem asObject_types (h : .has value .any ∈ Γ) :
    (asObject value).Types ctx V Γ (.held .object) := by
  refine (storageOf_exact h).settle fun storage => .intro fun s hready hΓ => ?_
  have hknown := isKnown_of_exact hready (hΓ (.exact value storage) (by simp))
  split
  · rename_i hobject
    refine .shaped value .object hobject (by simp) (pure_types (by simp) ?_)
    simp [h]
  · rename_i hobject
    have hunboxed : storage.isUnboxed = true := by
      obtain ⟨kind, ty⟩ := storage
      cases kind <;> simp_all [Storage.isKnown, Storage.isObjectShaped, Storage.isUnboxed]
    refine .shaped value .unboxed hunboxed (by simp) (define_types .object ?_ ?_ rfl).held
    · simp [Operation.demands, Coercion.demand]
    · simp [hunboxed, Shape.admits, Storage.isObjectShaped, Storage.boxed]

/-- A value is put into an object-shaped form. -/
theorem GivesValue.object {β : Type} {k : Temp → Lower β} {R : Guarantee β} (h : m.GivesValue)
    (hk : ∀ t, (k t).Types ctx [] ((Guarantee.held .object).facts t ++ Γ) R) :
    (m >>= fun t => asObject t >>= k).Types ctx V Γ R :=
  h.types.settle fun _ => (asObject_types (by simp)).settle fun t =>
    (hk t).mono (List.Subset.refl _) (by simp +contextual [List.subset_def])

/-- A number stays what it is. -/
theorem asNumber_run (h : s.layout.temp t = some storage) (hdouble : storage.isUnboxedDouble) :
    asNumber t ctx s = .ok t s := by
  unfold asNumber
  rw [bind_run (storageOf_run h), if_pos hdouble]
  rfl

theorem asNumber_double (h : .has value .double ∈ Γ) (hany : .has value .any ∈ Γ) :
    (asNumber value).Types ctx V Γ (.held .double) := by
  intro s a s' n hrun hready hn hV hΓ
  obtain ⟨storage, hstorage, hdouble⟩ := (hΓ _ h).1
  rw [asNumber_run hstorage hdouble] at hrun
  cases hrun
  exact ⟨.refl _ _ _, by simp, by simpa using ⟨(hΓ _ h).1, (hΓ _ hany).1⟩⟩

/-- Converting a loose temp may fuse the addition that defines it. -/
theorem asNumber_loose (h : value ∈ V) (hany : .has value .any ∈ Γ) :
    (asNumber value).Types ctx V Γ (.fresh .double) := by
  intro s a s' n hrun hready hn hV hΓ
  obtain ⟨storage, hstorage, hknown⟩ := (hΓ _ hany).1
  by_cases hdouble : storage.isUnboxedDouble = true
  · rw [asNumber_run hstorage hdouble] at hrun
    cases hrun
    refine ⟨.refl _ _ _, by simpa using hV _ h, ?_⟩
    simpa using ⟨⟨storage, hstorage, hdouble⟩, (hΓ _ hany).1⟩
  unfold asNumber at hrun
  rw [bind_run (storageOf_run hstorage), if_neg hdouble] at hrun
  replace hrun := get_ok hrun
  cases hadded : justAdded? s value with
  | none =>
    rw [hadded] at hrun
    exact define_types .double (by simpa [Operation.demands, Coercion.demand] using hany) rfl rfl
      hrun hready hn hV hΓ
  | some operands =>
    rw [hadded] at hrun
    obtain ⟨_, -, hrun⟩ := require_bind_ok (get_ok hrun)
    cases hrun
    have htemp : (fuseAddition value operands.1 operands.2 s).layout.temp value = some .double := by
      have hlt := Session.lt_size_of_temp hstorage
      exact (Array.getElem?_setIfInBounds_self_of_lt hlt)
    refine ⟨.single (.fuse hadded) (Session.extends_fuse hready.sound hadded (hV _ h)),
      by simpa using hV _ h, ?_⟩
    intro d hd
    rcases List.mem_cons.1 hd with rfl | hd
    · exact ⟨.double, htemp, rfl⟩
    · obtain rfl := List.mem_singleton.1 hd
      exact ⟨.double, htemp, rfl⟩

theorem asNumber_types (hany : .has value .any ∈ Γ)
    (h : value ∈ V ∨ .has value .double ∈ Γ) : (asNumber value).Types ctx V Γ (.held .double) := by
  rcases h with h | h
  · exact (asNumber_loose h hany).held
  · exact asNumber_double h hany

theorem asBoolean_types (h : .has value .any ∈ Γ) :
    (asBoolean value).Types ctx V Γ (.held .bool) := by
  refine (storageOf_exact h).settle fun storage => .intro fun s hready hΓ => ?_
  have hknown := isKnown_of_exact hready (hΓ (.exact value storage) (by simp))
  split
  · rename_i hbool
    exact .shaped value .bool hbool (by simp) (pure_types (by simp) (by simp [h]))
  split
  · rename_i hunboxed
    refine .shaped value .unboxed hunboxed (by simp) (define_types .bool ?_ rfl rfl).held
    simp [Operation.demands, Coercion.demand]
  · rename_i hunboxed
    have hobject : storage.isObjectShaped = true := by
      obtain ⟨kind, ty⟩ := storage
      cases kind <;> simp_all [Storage.isKnown, Storage.isObjectShaped, Storage.isUnboxed]
    refine .shaped value .object hobject (by simp) (define_types .bool ?_ rfl rfl).held
    simp [Operation.demands, Coercion.demand]

/-- A text stays what it is. -/
theorem asText_run (h : s.layout.temp t = some storage) :
    asText t ctx s =
      if storage.isString then .ok t s else define .string (.coerce .toText t) ctx s := by
  unfold asText
  rw [bind_run (storageOf_run h)]
  split <;> rfl

theorem asText_loose (h : value ∈ V) (hany : .has value .any ∈ Γ) :
    (asText value).Types ctx V Γ (.fresh .string) := by
  intro s a s' n hrun hready hn hV hΓ
  obtain ⟨storage, hstorage, hknown⟩ := (hΓ _ hany).1
  rw [asText_run hstorage] at hrun
  split at hrun
  · rename_i hstring
    cases hrun
    refine ⟨.refl _ _ _, by simpa using hV _ h, ?_⟩
    simpa using ⟨⟨storage, hstorage, hstring⟩, (hΓ _ hany).1⟩
  · exact define_types .string (by simpa [Operation.demands, Coercion.demand] using hany) rfl rfl
      hrun hready hn hV hΓ

theorem asText_types (h : .has value .any ∈ Γ) :
    (asText value).Types ctx V Γ (.held .string) := by
  refine (storageOf_exact h).settle fun storage => ?_
  split
  · rename_i hstring
    exact .shaped value .string hstring (by simp) (pure_types (by simp) (by simp [h]))
  · exact (define_types .string (by simp [*]) rfl rfl).held

/-- A value can be put into the form of a place, unless it had to be fused for that and is not
loose. -/
theorem coerceTo_types (hany : .has value .any ∈ Γ)
    (h : storage.isUnboxedDouble = false ∨ value ∈ V ∨ .has value .double ∈ Γ) :
    (coerceTo storage value).Types ctx V Γ (.held storage.shape) := by
  unfold coerceTo Storage.shape
  split
  · exact asNumber_types hany (h.resolve_left (by simp_all))
  split
  · exact asBoolean_types hany
  · exact asObject_types hany

/-! ### Slots -/

theorem freshSlot_types (h : storage.isKnown) :
    (freshSlot { name, storage, binding := none }).Types ctx V Γ (.slot storage) := by
  intro s a s' n hrun hready hn hV hΓ
  cases hrun
  refine ⟨.single (.freshSlot h nofun) (Session.extends_addSlot _), by simp, fun d hd => ?_⟩
  obtain rfl := List.mem_singleton.1 hd
  exact congrArg (Option.map _) Array.getElem?_push_size

theorem slotStorage_types {β : Type} {k : Storage → Lower β}
    {R : Guarantee β} (h : .slot slot storage ∈ Γ) (hk : (k storage).Types ctx V Γ R) :
    (slotStorage slot >>= k).Types ctx V Γ R := by
  intro s a s' n hrun hready hn hV hΓ
  have hslot : s.layout.slot slot = some storage := (hΓ _ h).1
  have hread : slotStorage slot ctx s = .ok storage s := by
    have : slotStorage slot ctx s = .ok ((s.layout.slot slot).getD .object) s := rfl
    rw [this, hslot]
    rfl
  rw [bind_run hread] at hrun
  exact hk hrun hready hn hV hΓ

theorem storeSlot_types (storage : Storage)
    (hslot : .slot slot storage ∈ Γ) (hany : .has value .any ∈ Γ)
    (h : storage.isUnboxedDouble = false ∨ value ∈ V ∨ .has value .double ∈ Γ) :
    (storeSlot slot value).Types ctx V Γ .nothing := by
  refine slotStorage_types hslot ((coerceTo_types hany h).settle fun stored => ?_)
  intro s a s' n hrun hready hn hV hΓ
  cases hrun
  obtain ⟨held, hheld, hshape⟩ := (hΓ (.has stored storage.shape) (by simp)).1
  have hfits := Storage.same_of_shape hshape
  refine ⟨.single (.store ⟨fun d hd => ?_, storage, held, ?_, hheld, hfits⟩) (Session.extends_store _ _),
    by simp, by simp⟩
  · obtain rfl := List.mem_singleton.1 hd
    exact (hΓ (.has stored .any) (by simp)).1
  · exact (hΓ (.slot slot storage) (by simp [hslot])).1

theorem loadSlot_types (storage : Storage) (shape : Shape)
    (hslot : .slot slot storage ∈ Γ) (hshape : shape.admits storage) :
    (loadSlot slot).Types ctx V Γ (.fresh shape) := by
  refine slotStorage_types hslot (define_raw_types hshape fun s hs hΓ => ⟨?_, ?_, trivial⟩)
  · simp [Operation.demands]
  · exact ⟨storage, hΓ _ hslot, layout_allocate s storage⟩

/-! ### State fields -/

theorem stateField_types (hname : StateName name) (hres : ctx.isResumable) :
    (stateField name).Types ctx V Γ .field := by
  intro s a s' n hrun hready hn hV hΓ
  obtain ⟨_, s₁, hmodify, hrest⟩ := bind_ok hrun
  cases hrest
  have hs₁ : s' = if s.stateFields.contains name then s
      else { s with stateFields := s.stateFields.push name } := by
    cases hmodify
    rfl
  by_cases hmem : s.stateFields.contains name = true
  · rw [if_pos hmem] at hs₁
    subst hs₁
    refine ⟨.refl _ _ _, by simp, fun d hd => ?_⟩
    obtain rfl := List.mem_singleton.1 hd
    exact ⟨rfl, by simpa using hmem⟩
  · rw [if_neg hmem] at hs₁
    subst hs₁
    refine ⟨.single (.stateField hres (by simpa using hmem) hname) (Session.extends_stateField name),
      by simp, fun d hd => ?_⟩
    obtain rfl := List.mem_singleton.1 hd
    exact ⟨rfl, Array.mem_push_self⟩

/-- A field of the function's own capture object is a state field in use, or some binding lives
there. -/
theorem owns_of_facts (h : .field field ∈ Γ ∨ .home (.leafField field) ∈ Γ)
    (hΓ : ∀ d ∈ Γ, s.Holds ctx.setting d) : s.Owns ctx.setting field :=
  h.imp (hΓ _) (hΓ _)

theorem loadLeafField_types (shape : Shape) (h : .field field ∈ Γ ∨ .home (.leafField field) ∈ Γ)
    (hshape : shape.admits storage) :
    (define storage (.loadLeafField field)).Types ctx V Γ (.fresh shape) :=
  define_raw_types hshape fun _ _ hΓ => ⟨by simp [Operation.demands], trivial,
    (Session.extends_allocate (n := 0) storage).owns (owns_of_facts h hΓ)⟩

theorem storeLeafField_types
    (h : .field field ∈ Γ ∨ .home (.leafField field) ∈ Γ) (hany : .has value .any ∈ Γ) :
    (perform (.storeLeafField field value)).Types ctx V Γ .nothing := by
  intro s a s' n hrun hready hn hV hΓ
  cases hrun
  refine ⟨emit_leads ⟨⟨fun d hd => ?_, trivial⟩, fun t ht => ?_, ?_⟩ rfl, by simp, by simp⟩
  · obtain rfl := List.mem_singleton.1 hd
    exact (hΓ _ hany).1
  · cases ht
  · exact owns_of_facts h fun d hd => (hΓ d hd).1

theorem loadState_types (shape : Shape) (hname : StateName name)
    (hres : ctx.isResumable) (hshape : shape.admits storage) :
    (loadState name storage).Types ctx V Γ (.fresh shape) :=
  (stateField_types hname hres).bind fun _ => loadLeafField_types shape (.inl (by simp)) hshape

theorem storeState_types (hname : StateName name)
    (hres : ctx.isResumable) (h : .has value .any ∈ Γ) :
    (storeState name value).Types ctx V Γ .nothing :=
  (stateField_types hname hres).bind fun _ => storeLeafField_types (.inl (by simp)) (by simp [h])

theorem setFlag_types (hname : StateName name) (value : Bool)
    (hres : ctx.isResumable) : (setFlag name value).Types ctx V Γ .nothing :=
  (bool_types value).settle fun _ => storeState_types hname hres (by simp)

theorem clearState_types (hname : StateName name) (hres : ctx.isResumable) :
    (clearState name).Types ctx V Γ .nothing :=
  null_types.settle fun _ => storeState_types hname hres (by simp)

/-! ### Carriers -/

theorem joinCarrier_types (h : storage.isKnown) :
    (joinCarrier hint storage).Types ctx V Γ (.carrier storage) := by
  intro s a s' n hrun hready hn hV hΓ
  obtain ⟨slot, s₁, hslot, hrest⟩ := bind_ok hrun
  cases hrest
  obtain ⟨hleads, -, hfacts⟩ := freshSlot_types h hslot hready hn hV hΓ
  refine ⟨hleads, by simp, fun d hd => ?_⟩
  obtain rfl := List.mem_singleton.1 hd
  exact ⟨rfl, hfacts (.slot slot storage) (by simp)⟩

theorem durableCarrier_types (hhint : hint ∈ carrierHints) (h : storage.isKnown) :
    (durableCarrier hint storage).Types ctx V Γ (.carrier storage) := by
  refine read_types ?_
  split
  · exact (joinCarrier_types h).bind fun _ => pure_types (by simp) (by simp)
  rename_i hres
  have hres : ctx.isResumable = true := by simpa using hres
  refine .bind (modify_types fun _ => ⟨rfl, rfl, rfl, rfl, rfl, rfl, rfl, rfl⟩) fun _ => get_types fun _ => ?_
  intro s a s' n hrun hready hn hV hΓ
  obtain ⟨field, s₁, hfield, hrest⟩ := bind_ok hrun
  cases hrest
  obtain ⟨hleads, -, hfacts⟩ := stateField_types (.carrier hhint _) hres hfield hready hn hV hΓ
  refine ⟨hleads, by simp, fun d hd => ?_⟩
  obtain rfl := List.mem_singleton.1 hd
  exact ⟨rfl, hfacts (.field field) (by simp)⟩

/-- The place of a carrier is there. -/
theorem Types.carrierPlace {m : Lower α} {Q : Guarantee α} (h : .carrier carrier storage ∈ Γ)
    (hslot : ∀ slot, carrier.place = .slot slot → m.Types ctx V (.slot slot storage :: Γ) Q)
    (hfield : ∀ field, carrier.place = .stateField field → carrier.storage = storage →
      m.Types ctx V (.field field :: Γ) Q) : m.Types ctx V Γ Q := by
  intro s a s' n hrun hready hn hV hΓ
  obtain ⟨hstorage, hplace⟩ := (hΓ _ h).1
  cases hcarrier : carrier.place with
  | slot slot =>
    rw [hcarrier] at hplace
    exact hslot slot hcarrier hrun hready hn hV (List.forall_mem_cons.2 ⟨⟨hplace, .inl rfl⟩, hΓ⟩)
  | stateField field =>
    rw [hcarrier] at hplace
    exact hfield field hcarrier hstorage hrun hready hn hV
      (List.forall_mem_cons.2 ⟨⟨hplace, .inl rfl⟩, hΓ⟩)

theorem storeCarrier_types (storage : Storage)
    (hc : .carrier carrier storage ∈ Γ) (hany : .has value .any ∈ Γ)
    (h : storage.isUnboxedDouble = false ∨ value ∈ V ∨ .has value .double ∈ Γ) :
    (storeCarrier carrier value).Types ctx V Γ .nothing := by
  unfold storeCarrier
  refine .carrierPlace hc (fun slot hplace => ?_) fun field hplace hstorage => ?_
  · rw [hplace]
    exact storeSlot_types storage (by simp) (by simp [hany]) (h.imp_right (Or.imp_right (.tail _)))
  · rw [hplace, hstorage]
    refine (coerceTo_types (by simp [hany]) (h.imp_right (Or.imp_right (.tail _)))).settle fun stored => ?_
    exact storeLeafField_types (.inl (by simp)) (by simp)

theorem loadCarrier_types (storage : Storage) (shape : Shape)
    (hc : .carrier carrier storage ∈ Γ) (hshape : shape.admits storage) :
    (loadCarrier carrier).Types ctx V Γ (.fresh shape) := by
  unfold loadCarrier
  refine .carrierPlace hc (fun slot hplace => ?_) fun field hplace hstorage => ?_
  · rw [hplace]
    exact loadSlot_types storage shape (by simp) hshape
  · rw [hplace, hstorage]
    exact loadLeafField_types shape (.inl (by simp)) hshape

theorem valueOrDefault_types {default : Lower Temp} (h : .has value .any ∈ Γ)
    (hdefault : default.GivesValue) :
    (valueOrDefault value default).Types ctx V Γ (.fresh .any) := by
  refine (joinCarrier_types rfl).settle fun carrier => .label fun skip => ?_
  refine .label fun join => ?_
  refine (define_types .bool (by simp [*]) rfl rfl).settle fun isUndefined => ?_
  refine .branchIf (by simp) <| hdefault.types.settle fun chosen => ?_
  refine (storeCarrier_types .object (by simp) (by simp) (.inl rfl)).seq fun _ => ?_
  refine .branch <| .place ?_
  refine (storeCarrier_types .object (by simp) (by simp [h]) (.inl rfl)).seq fun _ => ?_
  exact .place <| loadCarrier_types .object .any (by simp) rfl

/-! ### Exits -/

theorem jumpAcross_types (crossed : List Frame) (target : Label) :
    (jumpAcross crossed target).Types ctx V Γ .nothing := by
  unfold jumpAcross
  split
  · exact decline_types _
  · exact emit_types (by simp) rfl rfl
  · exact emit_types (by simp) rfl rfl

theorem jumpTo_types (isTarget : Frame → Bool) (label? : Frame → Option Label) (missing : Decline) :
    (jumpTo isTarget label? missing).Types ctx V Γ .nothing := by
  refine read_types ?_
  dsimp only
  split
  · exact decline_types _
  · exact jumpAcross_types _ _

theorem sharedExit_types : sharedExit.Types ctx V Γ .exit := by
  intro s a s' n hrun hready hn hV hΓ
  replace hrun := get_ok hrun
  cases he : s.epilogue with
  | some e =>
    rw [he] at hrun
    cases hrun
    refine ⟨.refl _ _ _, by simp, fun d hd => ?_⟩
    obtain rfl := List.mem_singleton.1 hd
    exact hready.sound.exit _ he
  | none =>
    rw [he] at hrun
    have htail : (do
        let label ← freshLabel
        let slot ← freshSlot { name := "$return", storage := .object, binding := none }
        modify fun s => { s with epilogue := some ⟨label, slot⟩ }
        return ⟨label, slot⟩ : Lower ReturnEpilogue).Types ctx V Γ .exit := by
      refine .label fun label => (freshSlot_types rfl).settle fun slot => ?_
      intro s a s' n hrun hready hn hV hΓ
      cases hrun
      have hslot := (hΓ (.slot slot .object) (by simp)).1
      refine ⟨.single (.sharedExit hslot) (.of_same rfl rfl rfl rfl), by simp, fun d hd => ?_⟩
      obtain rfl := List.mem_singleton.1 hd
      exact hslot
    exact htail hrun hready hn hV hΓ

theorem returnThrough_types {k : Nat} (hres : ctx.isResumable) (h : .has value .any ∈ Γ) :
    (returnThrough (.numbered k) route value).Types ctx V Γ .nothing := by
  refine (storeState_types (.returnValue k) hres h).seq fun _ => ?_
  refine (setFlag_types (.hasReturn k) _ hres).seq fun _ => ?_
  refine (setFlag_types (.hasException k) _ hres).seq fun _ => ?_
  exact (clearState_types (.exception k) hres).seq fun _ => branch_types _

/-- Only a resumable function has routed regions, and their fields have made-up names. -/
theorem isResumable_of_route {fields : PendingFields}
    (hready : ctx.Ready s) (h : ctx.frames.findSome? Frame.finallyRoute? = some (fields, route)) :
    ctx.isResumable = true ∧ ∃ k, fields = .numbered k := by
  obtain ⟨frame, hframe, hroute⟩ := List.exists_of_findSome?_eq_some h
  cases frame with
  | routed r =>
    obtain ⟨f, -, heq⟩ := Option.map_eq_some_iff.1 hroute
    obtain rfl : r.fields = fields := congrArg Prod.fst heq
    exact ⟨(hready.routes r hframe).1, hready.numbered r hframe⟩
  | _ => cases hroute

theorem returnValue_types (h : .has value .any ∈ Γ) :
    (returnValue value).Types ctx V Γ .nothing := by
  refine (asObject_types h).settle fun value => read_types (.intro fun s hready _ => ?_)
  dsimp only
  split
  · split
    · exact decline_types _
    split
    · exact decline_types _
    refine sharedExit_types.settle fun e => ?_
    refine (storeSlot_types .object (by simp) (by simp) (.inl rfl)).seq fun _ => ?_
    exact emit_types (by simp) rfl rfl
  · split
    · rename_i fields route hroute
      obtain ⟨hres, k, rfl⟩ := isResumable_of_route hready hroute
      exact returnThrough_types hres (by simp)
    · exact emit_types (by simp) rfl rfl

theorem placeSharedExit_types : placeSharedExit.Types ctx V Γ .nothing := by
  intro s a s' n hrun hready hn hV hΓ
  replace hrun := get_ok hrun
  cases he : s.epilogue with
  | none =>
    rw [he] at hrun
    exact done_types hrun hready hn hV hΓ
  | some e =>
    rw [he] at hrun
    have htail : (do
        place e.label
        let value ← loadSlot e.slot
        emit (.ret value) : Lower Unit).Types ctx V [.slot e.slot .object] .nothing := by
      refine .place <| (loadSlot_types .object .object (by simp) rfl).settle fun value => ?_
      exact emit_types (by simp) rfl rfl
    exact htail hrun hready hn hV fun d hd => by
      obtain rfl := List.mem_singleton.1 hd
      exact ⟨hready.sound.exit e he, .inl rfl⟩

theorem throwValue_types (h : .has value .any ∈ Γ) :
    (throwValue value).Types ctx V Γ .nothing := by
  refine (asObject_types h).settle fun value => read_types (.intro fun s hready _ => ?_)
  split
  · rename_i route hroute
    have hframe := List.mem_of_find?_eq_some hroute
    obtain ⟨k, hfields⟩ := hready.numbered route hframe
    have hname : StateName route.fields.exception := hfields ▸ .exception k
    exact (storeState_types hname (hready.routes route hframe).1 (by simp)).seq fun _ => branch_types _
  · exact emit_types (by simp) rfl rfl
  · split
    · exact emit_types (by simp) rfl rfl
    · exact emit_types (by simp) rfl rfl

theorem throwTypeError_types (message : String) :
    (throwBuiltInError .typeError message).Types ctx V Γ .nothing :=
  (define_types .object (by simp) rfl rfl).settle fun _ => throwValue_types (by simp)

/-! ### Bindings -/

theorem isKnown_declared (ty : Option ValueType) :
    ((ty.map Storage.ofType).getD .object).isKnown = true := by
  cases ty with
  | none => rfl
  | some ty => cases ty <;> rfl

/-- A home outside of the slots is one that the function can use, and no home of a variable for
numbers. -/
theorem Chooses.holds {s' : Session} (h : Chooses ctx s id b home s') (hready : ctx.Ready s)
    (hb : ctx.tree.binding? id = some b) :
    (∀ field, home = .leafField field → ctx.setting.FieldOf id field) ∧
      (s' = s ∧ s.Holds ctx.setting (.home home) ∧ ¬ ctx.setting.IsNumberLocal id ∨
        ∃ info : SlotInfo, info.storage.isKnown = true ∧
        (ctx.setting.IsNumberLocal id → info.storage = .double) ∧
        info.binding = some id ∧ home = .slot ⟨s.slots.size⟩ ∧
        s' = { s with slots := s.slots.push { info } }) := by
  have hnumber : ctx.setting.IsNumberLocal id → ctx.isResumable = false ∧
      ctx.tree.enclosingFunction? b.scope = some ctx.function.scope ∧ b.captured = false ∧
      b.kind ≠ .parameter ∧ b.kind ≠ .const ∧ b.stableType = some .double := by
    rintro ⟨hres, b', hb', hrest⟩
    obtain rfl := Option.some.inj (hb.symm.trans hb')
    exact ⟨hres, hrest⟩
  cases h with
  | parent howner hne =>
    exact ⟨nofun, .inl ⟨rfl, trivial, fun hid =>
      hne (Option.some.inj (howner.symm.trans (hnumber hid).2.1))⟩⟩
  | block hcaptured =>
    exact ⟨nofun, .inl ⟨rfl, trivial, fun hid => by simp [hcaptured] at hnumber; exact hnumber hid⟩⟩
  | argument hkind => exact ⟨nofun, .inl ⟨rfl, trivial, fun hid => (hnumber hid).2.2.2.1 hkind⟩⟩
  | @captured data howner hscope hcaptured hdata =>
    have hfield : ctx.setting.FieldOf id ⟨data.name, b.name⟩ := by
      refine ⟨b, hb, howner, ?_⟩
      rw [if_pos (show b.scope = ctx.setting.function.scope from hscope),
        hready.leaf data (hscope ▸ hdata)]
      rfl
    exact ⟨fun _ heq => Placement.leafField.inj heq ▸ hfield, .inl ⟨rfl, ⟨id, hfield⟩, fun hid => by
      simp [hcaptured] at hnumber; exact hnumber hid⟩⟩
  | resumable howner hres =>
    have hfield : ctx.setting.FieldOf id _ := ⟨b, hb, howner, rfl⟩
    exact ⟨fun _ heq => Placement.leafField.inj heq ▸ hfield, .inl ⟨rfl, ⟨id, hfield⟩, fun hid =>
      Bool.noConfusion (hres.symm.trans (hnumber hid).1)⟩⟩
  | slot hstorage =>
    exact ⟨nofun, .inr ⟨_, hstorage ▸ isKnown_declared _,
      fun hid => by rw [hstorage, (hnumber hid).2.2.2.2.2]; rfl, rfl, rfl, rfl⟩⟩

theorem placement_types (id : BindingId) : (placement id).Types ctx V Γ .home := by
  intro s a s' n hrun hready hn hV hΓ
  replace hrun := get_ok hrun
  cases hlookup : s.placements.lookup id with
  | some chosen =>
    rw [hlookup] at hrun
    cases hrun
    obtain ⟨before, after, hsplit, -⟩ := List.lookup_eq_some_iff.1 hlookup
    refine ⟨.refl _ _ _, by simp, fun d hd => ?_⟩
    obtain rfl := List.mem_singleton.1 hd
    exact hready.sound.homes (id, a) (by simp [hsplit])
  | none =>
    rw [hlookup] at hrun
    obtain ⟨chosen, s₁, hchoose, hrest⟩ := bind_ok hrun
    cases hrest
    obtain ⟨b, hb, hchooses⟩ := choosePlacement_ok hchoose
    obtain ⟨hfield, ⟨rfl, hhome, hnumber⟩ | ⟨info, hknown, hnumber, hbinding, rfl, rfl⟩⟩ :=
      hchooses.holds hready hb
    · refine ⟨.single (.home hhome hfield hlookup hnumber) (.of_same rfl rfl rfl rfl), by simp,
        fun d hd => ?_⟩
      obtain rfl := List.mem_singleton.1 hd
      exact (Session.Extends.of_same (n := 0) rfl rfl rfl rfl).holds hhome (.inl rfl)
    · have hnew : ∀ id', info.binding = some id' → s.placements.lookup id' = none ∧
          (ctx.setting.IsNumberLocal id' → info.storage = .double) := by
        rintro id' h
        obtain rfl := Option.some.inj (hbinding.symm.trans h)
        exact ⟨hlookup, hnumber⟩
      have hleads : Session.Leads ctx.setting n s (s.addSlot info) :=
        .single (.freshSlot hknown hnew) (Session.extends_addSlot info)
      rw [Session.addSlot, hbinding] at hleads
      refine ⟨hleads, by simp, fun d hd => ?_⟩
      obtain rfl := List.mem_singleton.1 hd
      exact ⟨_, congrArg (Option.map _) Array.getElem?_push_size⟩

/-- The carrier of an open block holds an object. -/
theorem loadBlock_types {p : ScopeId × Carrier} (hp : p ∈ ctx.blocks) :
    (loadCarrier p.2).Types ctx V Γ (.fresh .object) :=
  .intro fun _ hready _ => .choose (fun _ : Unit => .carrier p.2 p.2.storage) (fun _ => rfl)
    (fun _ hready _ => ⟨(), (hready.blocks p hp).2⟩)
    fun _ => loadCarrier_types _ .object (by simp) (hready.blocks p hp).1

theorem blockObject_types (scope : ScopeId) : (blockObject scope).Types ctx V Γ (.fresh .object) := by
  refine read_types ?_
  split
  · rename_i carrier hlookup
    exact loadBlock_types (OpenBlocks.mem_of_lookup hlookup)
  · exact decline_types _

/-- A slot that a binding lives in has some storage. -/
theorem Types.homeSlot {m : Lower α} {Q : Guarantee α} (slot : Slot) (h : .home (.slot slot) ∈ Γ)
    (hm : ∀ storage, storage.isKnown = true → m.Types ctx V (.slot slot storage :: Γ) Q) :
    m.Types ctx V Γ Q := by
  intro s a s' n hrun hready hn hV hΓ
  obtain ⟨storage, hstorage⟩ := (hΓ _ h).1
  have hknown : storage.isKnown = true := by
    obtain ⟨e, he, rfl⟩ := Option.map_eq_some_iff.1 hstorage
    exact hready.sound.slotsKnown e (Array.mem_of_getElem? he)
  exact hm storage hknown hrun hready hn hV (List.forall_mem_cons.2 ⟨⟨hstorage, .inl rfl⟩, hΓ⟩)

theorem loadBinding_types (id : BindingId) : (loadBinding id).Types ctx V Γ (.fresh .any) := by
  refine (placement_types id).bind fun home => ?_
  split
  · exact define_types .any (by simp) rfl rfl
  · rename_i slot
    exact .homeSlot slot (by simp) fun storage hknown => loadSlot_types storage .any (by simp) hknown
  · exact loadLeafField_types .any (.inr (by simp)) rfl
  · refine (blockObject_types _).settle fun object => ?_
    exact define_types .any (by simp) rfl rfl
  · exact define_types .any (by simp) rfl rfl

theorem storePlacement_types (hhome : .home home ∈ Γ) (h : value ∈ V) (hany : .has value .any ∈ Γ) :
    (storePlacement home value).Types ctx V Γ .nothing := by
  unfold storePlacement
  split
  · refine (asObject_types hany).settle fun value => perform_types ?_ rfl
    simp [Effect.demands, objects]
  · refine .homeSlot _ hhome fun storage _ => ?_
    exact storeSlot_types storage (by simp) (by simp [hany]) (.inr (.inl h))
  · refine (asObject_types hany).settle fun value => storeLeafField_types (.inr ?_) (by simp)
    simp [hhome]
  · refine (asObject_types hany).settle fun value => (blockObject_types _).settle fun object => ?_
    exact perform_types (by simp [Effect.demands, objects]) rfl
  · refine (asObject_types hany).settle fun value => perform_types ?_ rfl
    simp [Effect.demands, objects]

theorem initBinding_types (h : value ∈ V)
    (hany : .has value .any ∈ Γ) : (initBinding id value).Types ctx V Γ .nothing :=
  requireBinding_types fun _ _ => (placement_types id).bind fun _ =>
    storePlacement_types (by simp) (by simp [h]) (by simp [hany])

theorem assignBinding_types (h : value ∈ V)
    (hany : .has value .any ∈ Γ) : (assignBinding id value).Types ctx V Γ .nothing := by
  refine requireBinding_types fun b _ => ?_
  split
  · exact throwTypeError_types _
  · exact (placement_types id).bind fun _ =>
      storePlacement_types (by simp) (by simp [h]) (by simp [hany])

/-! ### Capture objects of blocks -/

theorem isUnboxedDouble_of_isObjectShaped (h : storage.isObjectShaped) :
    storage.isUnboxedDouble = false := by
  obtain ⟨kind, ty⟩ := storage
  cases kind <;> simp_all [Storage.isObjectShaped, Storage.isUnboxedDouble, Storage.isUnboxed]

theorem createBlockObject_types (storage : Storage)
    (hobject : storage.isObjectShaped) (hc : .carrier carrier storage ∈ Γ) :
    (createBlockObject scope carrier).Types ctx V Γ (.held .object) := by
  refine (define_types .object (by simp) rfl rfl).settle fun object => ?_
  refine (storeCarrier_types storage (by simp [hc]) (by simp)
    (.inl (isUnboxedDouble_of_isObjectShaped hobject))).seq fun _ => ?_
  exact pure_types (by simp) (by simp)

theorem inScope_types {scope : Option ScopeId} {m : Lower α} {Q : Guarantee α}
    (h : ∀ ctx, m.Types ctx V Γ Q) : (inScope scope m).Types ctx V Γ Q := by
  unfold inScope
  split
  · exact h ctx
  refine requireScope_types fun data _ => read_types ?_
  split
  · refine (durableCarrier_types (by decide) rfl).bind fun carrier => ?_
    refine (createBlockObject_types (.reference (.scope data.name)) rfl (by simp)).bind fun _ => ?_
    refine withinBlock_types (.reference (.scope data.name)) rfl (by simp) ((h _).mono (by simp) ?_)
    intro d hd
    simp [hd]
  · exact h ctx

theorem copyCaptured_types {previous fresh : Temp}
    (h : .has previous .object ∈ Γ) (h' : .has fresh .object ∈ Γ) :
    (copyCaptured scope previous fresh id).Types ctx [] Γ .nothing :=
  requireBinding_types fun _ _ =>
    (define_types .object (by simp [*]) rfl rfl).settle fun _ =>
      perform_types (by simp [*]) rfl

theorem renewBlock_types (scope : Option ScopeId) : (renewBlock scope).Types ctx V Γ .nothing := by
  unfold renewBlock
  split
  · exact done_types
  refine read_types ?_
  split
  · exact done_types
  rename_i id carrier hlookup
  have hp := OpenBlocks.mem_of_lookup hlookup
  refine requireScope_types fun data _ => (loadBlock_types hp).settle fun previous => ?_
  refine .intro fun _ hready _ => .choose (fun _ : Unit => .carrier carrier carrier.storage)
    (fun _ => rfl) (fun _ hready _ => ⟨(), (hready.blocks _ hp).2⟩) fun _ => ?_
  refine (createBlockObject_types _ (hready.blocks _ hp).1 (by simp)).settle fun fresh => read_types ?_
  exact forM_types _ fun id _ => copyCaptured_types (by simp) (by simp)

end Lower

end ScriptLowering
