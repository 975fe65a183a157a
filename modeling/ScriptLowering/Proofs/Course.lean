import Mathlib.Logic.Relation
import ScriptLowering.Proofs.Shape
import ScriptLowering.Proofs.StateName

/-!
# The course of a session

A session changes in few ways: a temp, a slot or a state field is allocated, an instruction is
appended, an addition is fused, a binding gets its home, the function suspends. `Session.Step` lists
them, each with what the lowering has made sure of by then, and a lowering is a sequence of such
steps. Whatever every step preserves holds of every lowered body.

The storage of a temp changes in one case only, when the addition that defines it is fused with a
conversion. `Session.Extends n` says that the temps below `n` are safe from that.
-/

namespace ScriptLowering

/-! ### Facts -/

/-- What stays the same throughout the lowering of a function. -/
structure Setting where
  function : Function
  tree : ScopeTree
  registry : Registry
  leafName : String

/-- The fixed part of the surroundings. -/
def Context.setting (ctx : Context) : Setting where
  function := ctx.function
  tree := ctx.tree
  registry := ctx.registry
  leafName := ctx.leafName

/-- The field of the function's own capture object that this binding of the function lives in. A
binding of a block has its number in the name. -/
def Setting.FieldOf (w : Setting) (id : BindingId) (field : FieldRef) : Prop :=
  ∃ b, w.tree.binding? id = some b ∧ w.tree.enclosingFunction? b.scope = some w.function.scope ∧
    field = ⟨w.leafName, if b.scope = w.function.scope then b.name
      else b.name ++ "$" ++ toString id.index⟩

/-- A binding of the function lives in the field. -/
def Setting.BindingField (w : Setting) (field : FieldRef) : Prop :=
  ∃ id, w.FieldOf id field

/-- The binding is a variable of the function itself that holds nothing but numbers, and can be
assigned to. Nothing captures it, and no suspension comes across it, so that it lives in a slot. -/
def Setting.IsNumberLocal (w : Setting) (id : BindingId) : Prop :=
  w.function.isResumable = false ∧ ∃ b, w.tree.binding? id = some b ∧
    w.tree.enclosingFunction? b.scope = some w.function.scope ∧ b.captured = false ∧
    b.kind ≠ .parameter ∧ b.kind ≠ .const ∧ b.stableType = some .double

/-- Something that is known about a session. -/
inductive Fact where
  /-- The temp is in the table and has the shape. -/
  | has (t : Temp) (shape : Shape)
  /-- The temp has this very storage. -/
  | exact (t : Temp) (storage : Storage)
  | slot (slot : Slot) (storage : Storage)
  /-- The carrier has the storage and its place exists. -/
  | carrier (carrier : Carrier) (storage : Storage)
  | home (home : Placement)
  /-- The field is a state field in use. -/
  | field (field : FieldRef)
  /-- The state belongs to a resume point for rejections. -/
  | point (state : Nat)
  /-- The receiver is an instance of a class without subclasses, in whose lineage the method is
  found first. -/
  | bound (receiver : Temp) (name : String) (arity : Nat) (declaring : ClassInfo) (method : MethodInfo)
  /-- The temps are one and the same. -/
  | same (t u : Temp)

/-- The shape survives when an object becomes a bare double. -/
def Shape.isFirm (shape : Shape) : Bool :=
  !shape.admits .object || shape.admits .double

/-- The fact cannot become false any more. -/
def Fact.isFirm : Fact → Bool
  | .has _ shape => shape.isFirm
  | .exact _ storage => storage != .object
  | _ => true

/-- The fact is about a temp below the mark, if it is about a storage that may change. -/
def Fact.Below (n : Nat) : Fact → Prop
  | .has t _ | .exact t _ => t.index < n
  | _ => True

namespace Session

/-- The layout so far. -/
def layout (s : Session) : Layout where
  temp t := s.temps[t.index]?
  slot slot := s.slots[slot.index]?.map (·.info.storage)

/-- The fact is true of the session. -/
def Holds (w : Setting) (s : Session) : Fact → Prop
  | .has t shape => s.layout.Has t shape
  | .exact t storage => s.layout.temp t = some storage
  | .slot slot storage => s.layout.slot slot = some storage
  | .carrier c storage => c.storage = storage ∧ match c.place with
    | .slot slot => s.layout.slot slot = some storage
    | .stateField field => field.scope = w.leafName ∧ field.name ∈ s.stateFields
  | .home home => match home with
    | .slot slot => ∃ storage, s.layout.slot slot = some storage
    | .leafField field => w.BindingField field
    | _ => True
  | .field field => field.scope = w.leafName ∧ field.name ∈ s.stateFields
  | .point state => ∃ p ∈ s.resumePoints, p.state = state ∧ p.kind = .reject
  | .bound receiver name arity declaring method => ∃ className,
    (s.layout.temp receiver).bind Storage.className? = some className ∧
      w.registry.hasSubclasses className = false ∧
      w.registry.instanceMethod? className name arity = some (declaring, method)
  | .same t u => t = u

/-- The field of the function's own capture object is a state field in use, or a binding lives in
it. -/
def Owns (w : Setting) (s : Session) (field : FieldRef) : Prop :=
  s.Holds w (.field field) ∨ w.BindingField field

/-- The temp is allocated, and no instruction defines or reads it yet. -/
def Idle (s : Session) (t : Temp) : Prop :=
  t.index < s.temps.size ∧ ∀ i ∈ s.code, t ∉ i.uses ∧ i.result? ≠ some t

end Session

/-! ### Steps -/

/-- The instruction calls the constructor of the parent class. -/
def Instr.callsSuper : Instr → Bool
  | .perform (.callSuper _ _) => true
  | _ => false

/-- What the lowering makes sure of before it appends an instruction. Suspensions, the dispatch and
stores into slots are steps of their own. -/
def Instr.Founded (w : Setting) (s : Session) : Instr → Prop
  | .dispatch _ _ | .suspend _ _ _ _ _ _ | .perform (.storeSlot _ _) => False
  | .define _ (.loadLeafField field) | .perform (.storeLeafField field _) => s.Owns w field
  | .define result (.add _ _) => s.layout.temp result = some .object
  | .define _ (.callTyped guarded className name callable receiver args) =>
    guarded = false ∧ ∃ declaring method, s.Holds w (.bound receiver name args.length declaring method) ∧
      className = declaring.name ∧ callable = method.callable
  | .define _ .loadThis => w.function.isDerivedConstructor = true → s.superCalled = true
  | .define _ (.newError .referenceError _) => s.superCalled = false
  | _ => True

/-- The instruction may be appended: it is well typed and its result is new. -/
structure Instr.Backed (w : Setting) (s : Session) (i : Instr) : Prop where
  typed : i.WellTyped s.layout
  idle : ∀ t, i.result? = some t → s.Idle t ∧ t ∉ i.uses
  founded : i.Founded w s

/-- What kind of resume point a suspension has. -/
def SuspendKind.resumeKind : SuspendKind → ResumeKind
  | .await => .await
  | .yield => .yield

namespace Session

/-- Only labels, regions, counters and reports differ. -/
structure SameCore (s s' : Session) : Prop where
  code : s'.code = s.code
  temps : s'.temps = s.temps
  slots : s'.slots = s.slots
  points : s'.resumePoints = s.resumePoints
  fields : s'.stateFields = s.stateFields
  epilogue : s'.epilogue = s.epilogue
  placements : s'.placements = s.placements
  superCalled : s'.superCalled = s.superCalled

/-- One more temp. -/
def allocate (storage : Storage) (s : Session) : Session :=
  { s with temps := s.temps.push storage }

/-- Stores into a slot. -/
def store (slot : Slot) (value : Temp) (s : Session) : Session :=
  { s with
    code := s.code.push (.perform (.storeSlot slot value))
    slots := s.slots.modify slot.index fun e => { e with stores := e.stores + 1 } }

/-- Suspends, and goes on at the label behind. -/
def suspend (kind : SuspendKind) (value : Temp) (label : Label) (result : Temp)
    (reject : Option RejectRoute) (s : Session) : Session :=
  { s with
    resumePoints := s.resumePoints.push
      { state := s.resumePoints.size + 1, label, result := some result, kind := kind.resumeKind }
    code := (s.code.push
      (.suspend kind value (s.resumePoints.size + 1) label result reject)).push (.label label) }

/-- Registers where rejections go on. -/
def addReject (label : Label) (s : Session) : Session :=
  { s with
    resumePoints := s.resumePoints.push
      { state := s.resumePoints.size + 1, label, result := none, kind := .reject } }

/-- The session with one more slot, which is the home of its binding. -/
def addSlot (s : Session) (info : SlotInfo) : Session :=
  { s with
    slots := s.slots.push { info }
    placements := (info.binding.map (·, .slot ⟨s.slots.size⟩)).toList ++ s.placements }

/-- A single change of a session. -/
inductive Step (w : Setting) (s : Session) : Session → Prop
  | aside {s' : Session} (h : s.SameCore s') : Step w s s'
  | allocate {storage : Storage} (h : storage.isKnown = true) :
    Step w s (s.allocate storage)
  | emit {i : Instr} (h : i.Backed w s) :
    Step w s { s with code := s.code.push i, superCalled := i.callsSuper || s.superCalled }
  | fuse {value left right : Temp} (h : Lower.justAdded? s value = some (left, right)) :
    Step w s (Lower.fuseAddition value left right s)
  | freshSlot {info : SlotInfo} (h : info.storage.isKnown = true)
    (hnew : ∀ id, info.binding = some id → s.placements.lookup id = none ∧
      (w.IsNumberLocal id → info.storage = .double)) : Step w s (s.addSlot info)
  | store {slot : Slot} {value : Temp}
    (h : (Instr.perform (.storeSlot slot value)).WellTyped s.layout) : Step w s (s.store slot value)
  | stateField {name : String} (hres : w.function.isResumable = true) (h : name ∉ s.stateFields)
    (hname : StateName name) : Step w s { s with stateFields := s.stateFields.push name }
  | home {id : BindingId} {home : Placement} (h : s.Holds w (.home home))
    (hid : ∀ field, home = .leafField field → w.FieldOf id field)
    (hnew : s.placements.lookup id = none) (hslot : ¬ w.IsNumberLocal id) :
    Step w s { s with placements := (id, home) :: s.placements }
  | sharedExit {e : ReturnEpilogue} (h : s.Holds w (.slot e.slot .object)) :
    Step w s { s with epilogue := some e }
  | suspend {kind : SuspendKind} {value result : Temp} {label : Label} {reject : Option RejectRoute}
    (hres : w.function.isResumable = true) (hvalue : s.Holds w (.has value .object))
    (hidle : s.Idle result) (hne : result ≠ value)
    (hreject : ∀ route, reject = some route →
      s.Holds w (.point route.state) ∧ s.Holds w (.field route.pending)) :
    Step w s (s.suspend kind value label result reject)
  | rejectPoint {label : Label} (h : w.function.isAsync = true) :
    Step w s (s.addReject label)
  | enter {start : Label} (hres : w.function.isResumable = true) (h : s.code = #[]) :
    Step w s { s with code := #[.dispatch [] start] }

/-! ### Growth -/

/-- Everything recorded stays, but temps from the mark on may turn from objects into doubles. -/
structure Extends (n : Nat) (s s' : Session) : Prop where
  temps : ∀ {t storage}, s.layout.temp t = some storage → s'.layout.temp t = some storage ∨
    n ≤ t.index ∧ storage = .object ∧ s'.layout.temp t = some .double
  slots : ∀ {slot storage}, s.layout.slot slot = some storage → s'.layout.slot slot = some storage
  fields : ∀ {name}, name ∈ s.stateFields → name ∈ s'.stateFields
  points : ∀ {p}, p ∈ s.resumePoints → p ∈ s'.resumePoints

namespace Extends

variable {n n' : Nat} {w : Setting} {s s' s'' : Session} {d : Fact}

theorem refl (n : Nat) (s : Session) : s.Extends n s :=
  ⟨.inl, id, id, id⟩

theorem trans (h : s.Extends n s') (h' : s'.Extends n s'') : s.Extends n s'' where
  temps ht := by
    rcases h.temps ht with ht' | ⟨hn, rfl, ht'⟩
    · exact h'.temps ht'
    · rcases h'.temps ht' with ht'' | ⟨-, hobject, -⟩
      · exact .inr ⟨hn, rfl, ht''⟩
      · cases hobject
  slots hs := h'.slots (h.slots hs)
  fields hf := h'.fields (h.fields hf)
  points hp := h'.points (h.points hp)

theorem mono (h : s.Extends n' s') (hn : n ≤ n') : s.Extends n s' where
  temps ht := (h.temps ht).imp_right fun ⟨hle, hrest⟩ => ⟨hn.trans hle, hrest⟩
  slots := h.slots
  fields := h.fields
  points := h.points

theorem of_same (htemps : s'.temps = s.temps) (hslots : s'.slots = s.slots)
    (hfields : s'.stateFields = s.stateFields) (hpoints : s'.resumePoints = s.resumePoints) :
    s.Extends n s' := by
  refine ⟨fun ht => .inl ?_, fun hs => ?_, fun hf => hfields ▸ hf, fun hp => hpoints ▸ hp⟩
  · simpa [layout, htemps] using ht
  · simpa [layout, hslots] using hs

/-- The temp is still in the table. -/
theorem size_le (h : s.Extends n s') : s.temps.size ≤ s'.temps.size := by
  by_contra hlt
  obtain ⟨storage, hlast⟩ : ∃ storage, s.layout.temp ⟨s'.temps.size⟩ = some storage :=
    ⟨_, Array.getElem?_eq_getElem (show s'.temps.size < _ by omega)⟩
  rcases h.temps hlast with hin | ⟨-, -, hin⟩
  · exact absurd (Array.getElem?_eq_some_iff.1 hin).1 (Nat.lt_irrefl _)
  · exact absurd (Array.getElem?_eq_some_iff.1 hin).1 (Nat.lt_irrefl _)

/-- What is known below the mark, or cannot change, stays true. -/
theorem holds (h : s.Extends n s') (hd : s.Holds w d) (hfirm : d.isFirm = true ∨ d.Below n) :
    s'.Holds w d := by
  cases d with
  | has t shape =>
    obtain ⟨storage, ht, hshape⟩ := hd
    rcases h.temps ht with ht' | ⟨hn, rfl, ht'⟩
    · exact ⟨storage, ht', hshape⟩
    · refine ⟨.double, ht', ?_⟩
      rcases hfirm with hfirm | hbelow
      · simpa [Fact.isFirm, Shape.isFirm, hshape] using hfirm
      · exact absurd hbelow (Nat.not_lt.2 hn)
  | exact t storage =>
    rcases h.temps hd with ht' | ⟨hn, rfl, -⟩
    · exact ht'
    · rcases hfirm with hfirm | hbelow
      · simp [Fact.isFirm] at hfirm
      · exact absurd hbelow (Nat.not_lt.2 hn)
  | slot slot storage => exact h.slots hd
  | carrier c storage =>
    refine ⟨hd.1, ?_⟩
    have hplace := hd.2
    split at hplace
    · exact h.slots hplace
    · exact ⟨hplace.1, h.fields hplace.2⟩
  | home home =>
    cases home with
    | slot slot => exact hd.imp fun _ => h.slots
    | _ => exact hd
  | same t u => exact hd
  | field field => exact ⟨hd.1, h.fields hd.2⟩
  | point state =>
    obtain ⟨p, hp, hstate⟩ := hd
    exact ⟨p, h.points hp, hstate⟩
  | bound receiver name arity declaring method =>
    obtain ⟨className, hclass, hmethod⟩ := hd
    obtain ⟨storage, ht, hstorage⟩ := Option.bind_eq_some_iff.1 hclass
    refine ⟨className, ?_, hmethod⟩
    rcases h.temps ht with ht' | ⟨-, rfl, -⟩
    · rw [ht']
      exact hstorage
    · cases hstorage

theorem owns (h : s.Extends n s') {field : FieldRef} (hf : s.Owns w field) : s'.Owns w field :=
  hf.imp_left fun hf => h.holds hf (.inl rfl)

end Extends

/-! ### Sound sessions -/

/-- What every session of a lowering satisfies. -/
structure Sound (w : Setting) (s : Session) : Prop where
  range : ∀ i ∈ s.code, ∀ t, t ∈ i.uses ∨ i.result? = some t → t.index < s.temps.size
  known : ∀ storage ∈ s.temps, storage.isKnown = true
  slotsKnown : ∀ e ∈ s.slots, e.info.storage.isKnown = true
  homes : ∀ p ∈ s.placements, s.Holds w (.home p.2)
  exit : ∀ e, s.epilogue = some e → s.Holds w (.slot e.slot .object)
  added : ∀ {t l r}, s.code.back? = some (.define t (.add l r)) → s.layout.temp t = some .object

theorem sound_empty (w : Setting) : ({} : Session).Sound w :=
  ⟨by simp, by simp, by simp, by simp, by simp, by simp⟩

section Steps

variable {w : Setting} {s s' : Session} {n : Nat}
variable {i : Instr} {left right t value : Temp}

theorem lt_size_of_has {shape : Shape} (h : s.layout.Has t shape) :
    t.index < s.temps.size := by
  obtain ⟨storage, ht, -⟩ := h
  exact (Array.getElem?_eq_some_iff.1 ht).1

/-- What the code ends with, if an addition can still be fused. -/
theorem back_of_justAdded (h : Lower.justAdded? s value = some (left, right)) :
    s.code.back? = some (.define value (.add left right)) := by
  unfold Lower.justAdded? at h
  split at h
  · rename_i result l r hback
    split at h
    · rename_i heq
      subst heq
      obtain ⟨rfl, rfl⟩ : l = left ∧ r = right := by simpa using h
      exact hback
    · cases h
  · cases h

theorem layout_temp (s : Session) (t : Temp) : s.layout.temp t = s.temps[t.index]? :=
  rfl

theorem layout_slot (s : Session) (slot : Slot) :
    s.layout.slot slot = s.slots[slot.index]?.map (·.info.storage) :=
  rfl

theorem lt_size_of_temp {storage : Storage} (h : s.layout.temp t = some storage) :
    t.index < s.temps.size :=
  (Array.getElem?_eq_some_iff.1 h).1

/-- An instruction stays well typed while the temps in the table keep their storages. -/
theorem Extends.wellTyped (h : s.Extends s.temps.size s') (hi : i.WellTyped s.layout) :
    i.WellTyped s'.layout := by
  refine hi.congr (fun t storage _ ht => ?_) fun _ _ => h.slots
  rcases h.temps ht with ht' | ⟨hle, -⟩
  · exact ht'
  · exact absurd (lt_size_of_temp ht) (Nat.not_lt.2 hle)

theorem extends_allocate (storage : Storage) :
    s.Extends n (s.allocate storage) := by
  refine ⟨fun {t} _ ht => .inl ?_, id, id, id⟩
  have hlt := lt_size_of_temp ht
  rw [layout_temp, allocate, Array.getElem?_push_lt hlt, ← Array.getElem?_eq_getElem hlt]
  exact ht

theorem extends_addSlot (info : SlotInfo) : s.Extends n (s.addSlot info) := by
  refine ⟨.inl, fun {slot} _ hs => ?_, id, id⟩
  obtain ⟨e, he, hstorage⟩ := Option.map_eq_some_iff.1 hs
  have hlt : slot.index < s.slots.size := (Array.getElem?_eq_some_iff.1 he).1
  rw [layout_slot, addSlot, Array.getElem?_push_lt hlt, ← Array.getElem?_eq_getElem hlt, he]
  exact congrArg some hstorage

theorem extends_stateField (name : String) :
    s.Extends n { s with stateFields := s.stateFields.push name } :=
  ⟨.inl, id, fun h => Array.mem_push_of_mem _ h, id⟩

/-- A store counts, and leaves the data of the slot alone. -/
theorem layout_store (slot : Slot) (value : Temp) (s : Session) :
    (s.store slot value).layout = s.layout := by
  have hslots : ∀ k : Nat, ((s.store slot value).slots[k]?).map (·.info.storage)
      = (s.slots[k]?).map (·.info.storage) := by
    intro k
    rw [store, Array.getElem?_modify]
    split
    · cases s.slots[k]? <;> rfl
    · rfl
  exact congrArg (Layout.mk _) (funext fun k => hslots k.index)

theorem extends_store (slot : Slot) (value : Temp) : s.Extends n (s.store slot value) := by
  refine ⟨fun h => .inl ?_, fun h => ?_, id, id⟩
  · rwa [layout_store]
  · rwa [layout_store]

theorem extends_suspend {kind : SuspendKind} {result : Temp} {label : Label}
    {reject : Option RejectRoute} : s.Extends n (s.suspend kind value label result reject) :=
  ⟨.inl, id, id, fun h => Array.mem_push_of_mem _ h⟩

theorem extends_addReject (label : Label) : s.Extends n (s.addReject label) :=
  ⟨.inl, id, id, fun h => Array.mem_push_of_mem _ h⟩

/-- Fusing changes one storage, from object to double. -/
theorem extends_fuse (hs : s.Sound w)
    (h : Lower.justAdded? s value = some (left, right)) (hn : n ≤ value.index) :
    s.Extends n (Lower.fuseAddition value left right s) := by
  have hobject := hs.added (back_of_justAdded h)
  refine ⟨fun {t storage} ht => ?_, id, id, id⟩
  have htemp : (Lower.fuseAddition value left right s).layout.temp t
      = (s.temps.setIfInBounds value.index .double)[t.index]? := rfl
  rw [htemp, Array.getElem?_setIfInBounds]
  split
  · rename_i heq
    obtain rfl : value = t := by cases value; cases t; exact congrArg _ heq
    obtain rfl := Option.some.inj (ht.symm.trans hobject)
    rw [if_pos (lt_size_of_temp hobject)]
    exact .inr ⟨hn, rfl, rfl⟩
  · exact .inl ht

theorem Step.extends (hs : s.Sound w) (h : Step w s s') : s.Extends 0 s' := by
  cases h with
  | aside h => exact .of_same h.temps h.slots h.fields h.points
  | allocate => exact extends_allocate _
  | emit => exact .of_same rfl rfl rfl rfl
  | fuse h => exact extends_fuse hs h (Nat.zero_le _)
  | freshSlot => exact extends_addSlot _
  | store => exact extends_store _ _
  | stateField => exact extends_stateField _
  | home => exact .of_same rfl rfl rfl rfl
  | sharedExit => exact .of_same rfl rfl rfl rfl
  | suspend => exact extends_suspend
  | rejectPoint => exact extends_addReject _
  | enter => exact .of_same rfl rfl rfl rfl

/-- Where the code and the storages stay, an addition at the end is still one of objects. -/
theorem Sound.added_of_same (hs : s.Sound w) (hext : s.Extends s.temps.size s')
    (hcode : s'.code = s.code) {l r : Temp}
    (hback : s'.code.back? = some (.define t (.add l r))) : s'.layout.temp t = some .object := by
  have hobject := hs.added (hcode ▸ hback)
  exact hext.holds (w := w) (d := .exact t .object) hobject (.inr (lt_size_of_temp hobject))

/-- The temps of one more instruction are in range. -/
theorem Sound.range_push (hs : s.Sound w) (hi : ∀ t, t ∈ i.uses ∨ i.result? = some t →
    t.index < s.temps.size) : ∀ j ∈ s.code.push i, ∀ t, t ∈ j.uses ∨ j.result? = some t →
    t.index < s.temps.size := by
  intro j hj t ht
  rcases Array.mem_push.1 hj with hj | rfl
  · exact hs.range j hj t ht
  · exact hi t ht

theorem lt_size_of_wellTyped (h : i.WellTyped s.layout) (ht : t ∈ i.uses) :
    t.index < s.temps.size := by
  obtain ⟨shape, hshape⟩ := Instr.exists_demand ht
  exact lt_size_of_has (h.operands _ hshape)

theorem lt_size_of_backed (h : i.Backed w s)
    (ht : t ∈ i.uses ∨ i.result? = some t) : t.index < s.temps.size := by
  rcases ht with ht | ht
  · exact lt_size_of_wellTyped h.typed ht
  · exact (h.idle t ht).1.1

/-- Steps keep sessions sound. -/
theorem Step.sound (hs : s.Sound w) (h : Step w s s') : s'.Sound w := by
  have hext := h.extends hs
  have hhomes : ∀ p ∈ s.placements, s'.Holds w (.home p.2) :=
    fun p hp => hext.holds (hs.homes p hp) (.inl rfl)
  have hexit : ∀ e, s.epilogue = some e → s'.Holds w (.slot e.slot .object) :=
    fun e he => hext.holds (hs.exit e he) (.inl rfl)
  cases h with
  | aside h =>
    refine ⟨?_, ?_, ?_, ?_, ?_, hs.added_of_same (.of_same h.temps h.slots h.fields h.points) h.code⟩
    · rw [h.code, h.temps]
      exact hs.range
    · rw [h.temps]
      exact hs.known
    · rw [h.slots]
      exact hs.slotsKnown
    · rw [h.placements]
      exact hhomes
    · rw [h.epilogue]
      exact hexit
  | allocate hknown =>
    refine ⟨fun i hi t ht => ?_, fun storage hmem => ?_, hs.slotsKnown, hhomes, hexit,
      hs.added_of_same (extends_allocate _) rfl⟩
    · have := hs.range i hi t ht
      simp only [Session.allocate, Array.size_push]
      omega
    · rcases Array.mem_push.1 hmem with hmem | rfl
      · exact hs.known storage hmem
      · exact hknown
  | @emit i hi =>
    refine ⟨hs.range_push fun t => lt_size_of_backed hi, hs.known, hs.slotsKnown, hhomes, hexit,
      fun {t l r} hback => ?_⟩
    obtain rfl : i = .define t (.add l r) := by simpa using hback
    exact hi.founded
  | @fuse value left right h =>
    have hlast := Array.mem_of_back? (back_of_justAdded h)
    have hsize : (s.temps.setIfInBounds value.index .double).size = s.temps.size :=
      Array.size_setIfInBounds
    refine ⟨fun i hi t ht => ?_, fun storage hmem => ?_, hs.slotsKnown, hhomes, hexit,
      fun hback => ?_⟩
    · show t.index < (s.temps.setIfInBounds value.index .double).size
      rw [hsize]
      rcases Array.mem_push.1 hi with hi | rfl
      · have hmem : i ∈ s.code.toList.dropLast := by rwa [← Array.toList_pop, Array.mem_toList_iff]
        exact hs.range i (Array.mem_toList_iff.1 ((List.dropLast_sublist _).subset hmem)) t ht
      · exact hs.range _ hlast t ht
    · rcases Array.mem_or_eq_of_mem_setIfInBounds hmem with hmem | rfl
      · exact hs.known storage hmem
      · rfl
    · simp [Lower.fuseAddition] at hback
  | freshSlot hknown =>
    refine ⟨hs.range, hs.known, fun e he => ?_, fun p hp => ?_, hexit,
      hs.added_of_same (extends_addSlot _) rfl⟩
    · rcases Array.mem_push.1 he with he | rfl
      · exact hs.slotsKnown e he
      · exact hknown
    · rcases List.mem_append.1 hp with hp | hp
      · obtain ⟨id, -, rfl⟩ := Option.map_eq_some_iff.1 (Option.mem_toList.1 hp)
        exact ⟨_, congrArg (Option.map _) Array.getElem?_push_size⟩
      · exact hhomes p hp
  | @store slot value h =>
    refine ⟨hs.range_push fun t ht => ?_, hs.known, fun e he => ?_, hhomes, hexit, fun hback => ?_⟩
    · exact lt_size_of_wellTyped h (ht.resolve_right fun hresult => by cases hresult)
    · obtain ⟨k, hk, rfl⟩ := Array.getElem_of_mem he
      have hk' : k < s.slots.size := by simpa [Session.store] using hk
      have := hs.slotsKnown _ (Array.getElem_mem hk')
      simp only [Session.store, Array.getElem_modify]
      split <;> exact this
    · simp [Session.store] at hback
  | stateField =>
    exact ⟨hs.range, hs.known, hs.slotsKnown, hhomes, hexit,
      hs.added_of_same (extends_stateField _) rfl⟩
  | home hhome =>
    refine ⟨hs.range, hs.known, hs.slotsKnown, fun p hp => ?_, hexit,
      hs.added_of_same (.of_same rfl rfl rfl rfl) rfl⟩
    rcases List.mem_cons.1 hp with rfl | hp
    · exact hext.holds hhome (.inl rfl)
    · exact hhomes p hp
  | sharedExit hslot =>
    refine ⟨hs.range, hs.known, hs.slotsKnown, hhomes, fun e he => ?_,
      hs.added_of_same (.of_same rfl rfl rfl rfl) rfl⟩
    cases he
    exact hext.holds hslot (.inl rfl)
  | suspend hres hvalue hidle =>
    refine ⟨fun i hi t ht => ?_, hs.known, hs.slotsKnown, hhomes, hexit, fun hback => ?_⟩
    · rcases Array.mem_push.1 hi with hi | rfl
      · refine hs.range_push (fun t ht => ?_) i hi t ht
        rcases ht with ht | ht
        · obtain rfl := List.mem_singleton.1 ht
          exact lt_size_of_has hvalue
        · cases ht
          exact hidle.1
      · rcases ht with ht | ht
        · cases ht
        · cases ht
    · simp [Session.suspend] at hback
  | rejectPoint =>
    exact ⟨hs.range, hs.known, hs.slotsKnown, hhomes, hexit,
      hs.added_of_same (extends_addReject _) rfl⟩
  | enter =>
    refine ⟨fun i hi t ht => ?_, hs.known, hs.slotsKnown, hhomes, hexit, fun hback => ?_⟩
    · obtain rfl : i = _ := by simpa using hi
      rcases ht with ht | ht
      · cases ht
      · cases ht
    · simp at hback

end Steps

/-! ### Sequences of steps -/

/-- Steps lead from the first session to the second, and temps below the mark keep their
storages. -/
structure Leads (w : Setting) (n : Nat) (s s' : Session) : Prop where
  steps : Relation.ReflTransGen (Step w) s s'
  growth : s.Extends n s'

namespace Leads

variable {w : Setting} {n n' : Nat} {s s' s'' : Session}

theorem refl (w : Setting) (n : Nat) (s : Session) : s.Leads w n s :=
  ⟨.refl, .refl n s⟩

theorem trans (h : s.Leads w n s') (h' : s'.Leads w n s'') : s.Leads w n s'' :=
  ⟨h.steps.trans h'.steps, h.growth.trans h'.growth⟩

theorem mono (h : s.Leads w n' s') (hn : n ≤ n') : s.Leads w n s' :=
  ⟨h.steps, h.growth.mono hn⟩

theorem single (h : Step w s s') (hext : s.Extends n s') : s.Leads w n s' :=
  ⟨.single h, hext⟩

theorem sound (h : s.Leads w n s') (hs : s.Sound w) : s'.Sound w := by
  obtain ⟨hsteps, -⟩ := h
  induction hsteps with
  | refl => exact hs
  | tail _ hstep ih => exact hstep.sound ih

/-- What every step of a sound session preserves holds in the end if it does at the start. -/
theorem invariant {P : Session → Prop} (h : s.Leads w n s') (hs : s.Sound w) (hP : P s)
    (hstep : ∀ {s s' : Session}, s.Sound w → P s → Step w s s' → P s') : P s' := by
  obtain ⟨hsteps, -⟩ := h
  suffices hboth : s'.Sound w ∧ P s' from hboth.2
  induction hsteps with
  | refl => exact ⟨hs, hP⟩
  | tail _ hnext ih => exact ⟨hnext.sound ih.1, hstep ih.1 ih.2 hnext⟩

end Leads

end Session

end ScriptLowering
