import Mathlib.Data.List.Basic
import ScriptLowering.Code.Body

/-!
# Shapes of operands

Every temp and every slot has a storage, and an instruction works only on operands that are
represented the way it expects. `Instr.demands` lists the operands of an instruction, each with the
`Shape` that its storage must have. A slot is loaded into a temp of the slot's own storage, and what
is stored into it is a bare double or a bare boolean exactly when the slot is. What is constructed
is an object.
-/

namespace ScriptLowering

variable {i : Instr}

/-- Something is recorded about the value. -/
def Storage.isKnown (s : Storage) : Bool := s.kind != .unknown

/-- What an instruction may ask of the storage of an operand. -/
inductive Shape where
  | any
  | object
  | unboxed
  | double
  | bool
  | string
  | array
  /-- A value for a field of the declared type: an object, or a bare value of just that type. -/
  | field (ty : Option ValueType)
deriving DecidableEq

/-- The storage has the shape. -/
def Shape.admits : Shape → Storage → Bool
  | .any, s => s.isKnown
  | .object, s => s.isObjectShaped
  | .unboxed, s => s.isUnboxed
  | .double, s => s.isUnboxedDouble
  | .bool, s => s.isUnboxedBool
  | .string, s => s.isString
  | .array, s => s.isArray
  | .field ty, s => s.isObjectShaped || s.isUnboxed && ty.any (Storage.ofType · == s)

/-! ### Demands -/

/-- The shape of the source of a coercion. -/
def Coercion.demand : Coercion → Shape
  | .toObject | .toBoolean => .unboxed
  | .truthiness => .object
  | .toNumber | .toText => .any

/-- Operands that all have to be objects. -/
def objects (ts : List Temp) : List (Temp × Shape) :=
  ts.map fun t => (t, .object)

/-- The operands of an operation, each with the shape that it must have. -/
def Operation.demands : Operation → List (Temp × Shape)
  | .literal _ | .loadSlot _ | .loadArgument _ | .loadThis | .loadException | .newScope _
  | .loadLeafField _ | .loadParentField _ _ | .newError _ _ | .globalValue _ | .classValue _ => []
  | .copy t | .isUndefined t => [(t, .any)]
  | .coerce kind t => [(t, kind.demand)]
  | .typeOf t | .isNullish t | .isInstance t _ | .loadScopeField t _ | .getProperty t _
  | .getLength t | .loadField t _ _ | .normalizeIterable t | .closure _ t _ => objects [t]
  | .numericUnary _ t => [(t, .double)]
  | .numeric _ l r | .compare _ l r => [(l, .double), (r, .double)]
  | .not t => [(t, .bool)]
  | .concat l r => [(l, .string), (r, .string)]
  | .add l r | .addToNumber l r | .dynamic _ l r | .getItem l r => objects [l, r]
  | .getElement array index => [(array, .array), (index, .double)]
  | .callMember t _ packed | .newValue t packed => [(t, .object), (packed, .array)]
  | .buildScopes sources => objects (sources.filterMap ScopeSource.temp?)
  | .newArray ts | .packArguments ts | .callStatic _ _ _ ts | .callGlobal _ ts
  | .callIntrinsicMember _ _ ts | .callRuntime _ ts | .newClass _ ts | .newIntrinsic _ ts => objects ts
  | .newObject properties => objects (properties.map (·.2))
  | .callFunction _ scopes args => objects (scopes :: args)
  | .callValue function scopes args => objects (function :: scopes :: args)
  | .callValuePacked function scopes packed => objects [function, scopes] ++ [(packed, .array)]
  | .callMethodValue function receiver scopes packed =>
    objects [function, receiver, scopes] ++ [(packed, .array)]
  | .callMemberFixed receiver _ args | .callTyped _ _ _ _ receiver args => objects (receiver :: args)

/-- The operands of an effect, each with the shape that it must have. -/
def Effect.demands : Effect → List (Temp × Shape)
  | .storeSlot _ t | .storeLeafField _ t => [(t, .any)]
  | .storeArgument _ t | .storeParentField _ _ t => objects [t]
  | .createLeaf _ => []
  | .storeScopeField s _ t | .setProperty s _ t => objects [s, t]
  | .appendItem array t | .appendAll array t => [(array, .array), (t, .object)]
  | .storeField s _ _ ty t => [(s, .object), (t, .field ty)]
  | .setItem object key value => objects [object, key, value]
  | .callSuper _ args => objects args

/-- The operands of an instruction, each with the shape that it must have. -/
def Instr.demands : Instr → List (Temp × Shape)
  | .define _ op => op.demands
  | .perform effect => effect.demands
  | .branchIf _ t _ => [(t, .bool)]
  | .ret t | .raise t | .suspend _ t _ _ _ _ | .asyncReject t => objects [t]
  | .label _ | .branch _ | .leave _ | .endFinally | .dispatch _ _ => []

theorem map_fst_objects (ts : List Temp) : (objects ts).map Prod.fst = ts := by
  simp [objects, Function.comp_def]

/-- Every operand has its demand. -/
theorem Instr.map_fst_demands (i : Instr) : i.demands.map Prod.fst = i.uses := by
  cases i with
  | define result op =>
    cases op <;> simp [demands, Operation.demands, uses, Operation.uses, map_fst_objects]
  | perform effect =>
    cases effect <;> simp [demands, Effect.demands, uses, Effect.uses, map_fst_objects]
  | _ => simp [demands, uses, map_fst_objects]

theorem Instr.exists_demand {t : Temp} (h : t ∈ i.uses) :
    ∃ shape, (t, shape) ∈ i.demands := by
  rw [← map_fst_demands] at h
  obtain ⟨⟨t, shape⟩, hd, rfl⟩ := List.mem_map.1 h
  exact ⟨shape, hd⟩

theorem Instr.mem_uses_of_demand {d : Temp × Shape} (h : d ∈ i.demands) : d.1 ∈ i.uses := by
  rw [← map_fst_demands]
  exact List.mem_map_of_mem h

/-! ### Layouts -/

/-- The storages of temps and slots. -/
structure Layout where
  temp : Temp → Option Storage
  slot : Slot → Option Storage

/-- The temp has a storage of the shape. -/
def Layout.Has (L : Layout) (t : Temp) (shape : Shape) : Prop :=
  ∃ storage, L.temp t = some storage ∧ shape.admits storage = true

/-- A reference to an arbitrary object or to an instance of a class. -/
def Storage.isInstance (s : Storage) : Bool :=
  s == .object || s.className?.isSome

/-- A slot is loaded in its own storage, and holds a bare double or boolean only if it is one. A
construction gives an instance. -/
def Instr.FitsStorage (L : Layout) : Instr → Prop
  | .define result (.loadSlot slot) =>
    ∃ storage, L.slot slot = some storage ∧ L.temp result = some storage
  | .define result (.newClass _ _) =>
    ∃ storage, L.temp result = some storage ∧ storage.isInstance = true
  | .perform (.storeSlot slot value) =>
    ∃ held stored, L.slot slot = some held ∧ L.temp value = some stored ∧
      stored.isUnboxedDouble = held.isUnboxedDouble ∧ stored.isUnboxedBool = held.isUnboxedBool
  | _ => True

/-- The operands, the slot and the result of an instruction are represented as it expects. -/
structure Instr.WellTyped (L : Layout) (i : Instr) : Prop where
  operands : ∀ d ∈ i.demands, L.Has d.1 d.2
  storage : i.FitsStorage L

/-- An instruction sees only its own temps and slots. -/
theorem Instr.WellTyped.congr {L L' : Layout} (h : i.WellTyped L)
    (htemp : ∀ t storage, t ∈ i.uses ∨ i.result? = some t → L.temp t = some storage →
      L'.temp t = some storage)
    (hslot : ∀ slot storage, L.slot slot = some storage → L'.slot slot = some storage) :
    i.WellTyped L' where
  operands d hd := by
    obtain ⟨storage, hstorage, hshape⟩ := h.operands d hd
    exact ⟨storage, htemp _ _ (.inl (mem_uses_of_demand hd)) hstorage, hshape⟩
  storage := by
    have hfits := h.storage
    unfold FitsStorage at hfits ⊢
    split at hfits
    · obtain ⟨storage, hheld, hresult⟩ := hfits
      exact ⟨storage, hslot _ _ hheld, htemp _ _ (.inr rfl) hresult⟩
    · obtain ⟨storage, hresult, hinstance⟩ := hfits
      exact ⟨storage, htemp _ _ (.inr rfl) hresult, hinstance⟩
    · obtain ⟨held, stored, hheld, hvalue, hsame⟩ := hfits
      exact ⟨held, stored, hslot _ _ hheld, htemp _ _ (.inl (.head _)) hvalue, hsame⟩
    · trivial

/-- The layout of a body. -/
def Body.layout (b : Body) : Layout where
  temp t := b.temps[t.index]?.join
  slot slot := b.slots[slot.index]?.map SlotInfo.storage

/-- Every instruction is well typed. -/
def Body.WellTyped (b : Body) : Prop :=
  ∀ i ∈ b.code, i.WellTyped b.layout

end ScriptLowering
