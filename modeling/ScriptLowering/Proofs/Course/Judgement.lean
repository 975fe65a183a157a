import ScriptLowering.Proofs.Course

/-!
# A judgement for steps of the lowering

`m.Types ctx V Γ R` says that `m` only ever takes steps of `Session.Step` in the surroundings `ctx`,
provided that the facts in `Γ` are true, and that its result keeps the guarantee `R`.

The temps in `V` are *loose*: `m` may fuse the addition that defines one of them, which turns an
object into a double. All other temps that exist keep their storages. So there are two ways to go on
behind a step. `Types.bind` keeps its result loose, and carries over only those facts about it that
no fusion can spoil. `Types.settle` carries over all facts, and then nothing is loose any more.
-/

namespace ScriptLowering

variable {shape : Shape}

variable {i : Instr} {s : Session} {w : Setting}

/-! ### Surroundings -/

/-- The session holds what the surroundings refer to. -/
structure Context.Ready (ctx : Context) (s : Session) : Prop where
  sound : s.Sound ctx.setting
  blocks : ∀ p ∈ ctx.blocks, p.2.storage.isObjectShaped = true ∧
    s.Holds ctx.setting (.carrier p.2 p.2.storage)
  routes : ∀ route, .routed route ∈ ctx.frames → ctx.isResumable = true ∧
    ∀ state, route.throwState = some state → s.Holds ctx.setting (.point state)
  numbered : ∀ route, .routed route ∈ ctx.frames → ∃ n, route.fields = .numbered n
  leaf : ∀ scope, ctx.tree.scope? ctx.function.scope = some scope → scope.name = ctx.leafName

theorem Context.Ready.mono {ctx : Context} {n : Nat} {s' : Session} (h : ctx.Ready s)
    (hleads : s.Leads ctx.setting n s') : ctx.Ready s' where
  sound := hleads.sound h.sound
  blocks p hp := (h.blocks p hp).imp_right fun hc => hleads.growth.holds hc (.inl rfl)
  routes route hroute := (h.routes route hroute).imp_right fun hpoint state hstate =>
    hleads.growth.holds (hpoint state hstate) (.inl rfl)
  numbered := h.numbered
  leaf := h.leaf

/-! ### Facts that last -/

attribute [simp] Fact.isFirm

@[simp] theorem Shape.isFirm_any : Shape.any.isFirm = true := rfl
@[simp] theorem Shape.isFirm_object : Shape.object.isFirm = false := rfl
@[simp] theorem Shape.isFirm_double : Shape.double.isFirm = true := rfl
@[simp] theorem Shape.isFirm_bool : Shape.bool.isFirm = true := rfl
@[simp] theorem Shape.isFirm_string : Shape.string.isFirm = true := rfl
@[simp] theorem Shape.isFirm_array : Shape.array.isFirm = true := rfl

/-- Only a recorded storage has a shape. -/
theorem Shape.isKnown_of_admits {storage : Storage}
    (h : shape.admits storage) : storage.isKnown = true := by
  obtain ⟨kind, ty⟩ := storage
  cases kind with
  | unknown =>
    cases shape <;> simp [admits, Storage.isKnown, Storage.isObjectShaped, Storage.isUnboxed,
      Storage.isUnboxedDouble, Storage.isUnboxedBool, Storage.isString, Storage.isArray] at h
  | _ => rfl

/-- A true fact is about a temp in the table. -/
theorem Session.Holds.below {d : Fact} (h : s.Holds w d) :
    d.Below s.temps.size := by
  cases d with
  | has t shape => exact lt_size_of_has h
  | exact t storage => exact lt_size_of_temp h
  | _ => trivial

/-- The operation needs nothing but operands of the right shapes. -/
def Operation.isOrdinary : Operation → Bool
  | .loadSlot _ | .loadLeafField _ | .add _ _ | .callTyped _ _ _ _ _ _ | .newClass _ _ | .loadThis
  | .newError .referenceError _ => false
  | _ => true

/-- The instruction needs nothing but operands of the right shapes. -/
def Instr.isOrdinary : Instr → Bool
  | .dispatch _ _ | .suspend _ _ _ _ _ _ | .perform (.storeSlot _ _)
  | .perform (.storeLeafField _ _) | .perform (.callSuper _ _) => false
  | .define _ op => op.isOrdinary
  | _ => true

theorem Instr.fitsStorage_of_isOrdinary (h : i.isOrdinary) {L : Layout} :
    i.FitsStorage L := by
  unfold FitsStorage
  split
  · cases h
  · cases h
  · cases h
  · trivial

theorem Instr.founded_of_isOrdinary (h : i.isOrdinary) : i.Founded w s := by
  unfold Founded
  split
  case h_10 => trivial
  all_goals cases h

theorem Instr.callsSuper_of_isOrdinary (h : i.isOrdinary) : i.callsSuper = false := by
  unfold callsSuper
  split
  · cases h
  · rfl

/-! ### The judgement -/

/-- What is said about a result: which temps in it are loose, and what is known. -/
structure Guarantee (α : Type) where
  loose : α → List Temp
  facts : α → List Fact

namespace Guarantee

/-- Nothing is said. -/
@[simp] def nothing {α : Type} : Guarantee α := ⟨fun _ => [], fun _ => []⟩

/-- A new temp of the shape. -/
@[simp] def fresh (shape : Shape) : Guarantee Temp :=
  ⟨fun t => [t], fun t => [.has t shape, .has t .any]⟩

/-- A temp of the shape, which may have been there before. -/
@[simp] def held (shape : Shape) : Guarantee Temp :=
  ⟨fun _ => [], fun t => [.has t shape, .has t .any]⟩

/-- The temp that was there before. -/
@[simp] def returns (t : Temp) : Guarantee Temp := ⟨fun _ => [], fun u => [.same u t, .has u .any]⟩

end Guarantee

namespace Lower

/-- If the facts are true, the step is a sequence of steps of the session that touches no storages
but those of loose temps, and its result is as guaranteed. -/
def Types {α : Type} (ctx : Context) (V : List Temp) (Γ : List Fact) (R : Guarantee α)
    (m : Lower α) : Prop :=
  ∀ ⦃s : Session⦄ ⦃a : α⦄ ⦃s' : Session⦄ ⦃n : Nat⦄, m ctx s = .ok a s' → ctx.Ready s →
    n ≤ s.temps.size → (∀ t ∈ V, n ≤ t.index) →
    (∀ d ∈ Γ, s.Holds ctx.setting d ∧ (d.isFirm = true ∨ d.Below n)) →
    s.Leads ctx.setting n s' ∧ (∀ t ∈ R.loose a, n ≤ t.index) ∧
      ∀ d ∈ R.facts a, s'.Holds ctx.setting d

variable {α β : Type} {ctx : Context} {V V' : List Temp} {Γ Γ' : List Fact} {m : Lower α}
  {k : α → Lower β} {Q : Guarantee α} {R : Guarantee β}
variable {i : Instr} {n : Nat} {op : Operation} {s : Session} {w : Setting} {storage : Storage}
  {γ : Type}

namespace Types

theorem mono (h : m.Types ctx V Γ Q) (hV : V ⊆ V') (hΓ : Γ ⊆ Γ') : m.Types ctx V' Γ' Q :=
  fun _ _ _ _ hrun hready hn hloose hfacts =>
    h hrun hready hn (fun t ht => hloose t (hV ht)) fun d hd => hfacts d (hΓ hd)

/-- What needs no facts and fuses nothing can be done anywhere. -/
theorem anywhere (h : m.Types ctx [] [] Q) : m.Types ctx V Γ Q :=
  h.mono (List.nil_subset _) (List.nil_subset _)

theorem weaken {Q' : Guarantee α} (h : m.Types ctx V Γ Q) (hloose : ∀ a, Q'.loose a ⊆ Q.loose a)
    (hfacts : ∀ a, Q'.facts a ⊆ Q.facts a) : m.Types ctx V Γ Q' := by
  intro s a s' n hrun hready hn hV hΓ
  obtain ⟨hleads, hQ, hQ'⟩ := h hrun hready hn hV hΓ
  exact ⟨hleads, fun t ht => hQ t (hloose a ht), fun d hd => hQ' d (hfacts a hd)⟩

/-- A step without assumptions is a sequence of steps wherever its surroundings are ready. -/
theorem leads (h : m.Types ctx [] [] Q) {s s' : Session} {a : α} (hrun : m ctx s = .ok a s')
    (hready : ctx.Ready s) : s.Leads ctx.setting 0 s' :=
  (h hrun hready (Nat.zero_le _) (by simp) (by simp)).1

/-- One step after the other, where the result of the first one stays loose. -/
theorem bind (hm : m.Types ctx V Γ Q)
    (hk : ∀ a, (k a).Types ctx (Q.loose a ++ V) ((Q.facts a).filter Fact.isFirm ++ Γ) R) :
    (m >>= k).Types ctx V Γ R := by
  intro s b s'' n hrun hready hn hV hΓ
  obtain ⟨a, s', hfirst, hsecond⟩ := bind_ok hrun
  obtain ⟨hleads, hloose, hfacts⟩ := hm hfirst hready hn hV hΓ
  have hV' : ∀ t ∈ Q.loose a ++ V, n ≤ t.index := by
    intro t ht
    rcases List.mem_append.1 ht with ht | ht
    · exact hloose t ht
    · exact hV t ht
  have hΓ' : ∀ d ∈ (Q.facts a).filter Fact.isFirm ++ Γ,
      s'.Holds ctx.setting d ∧ (d.isFirm = true ∨ d.Below n) := by
    intro d hd
    rcases List.mem_append.1 hd with hd | hd
    · obtain ⟨hd, hfirm⟩ := List.mem_filter.1 hd
      exact ⟨hfacts d hd, .inl hfirm⟩
    · obtain ⟨hd, hsafe⟩ := hΓ d hd
      exact ⟨hleads.growth.holds hd hsafe, hsafe⟩
  obtain ⟨hleads', hresult⟩ := hk a hsecond (hready.mono hleads) (hn.trans hleads.growth.size_le)
    hV' hΓ'
  exact ⟨hleads.trans hleads', hresult⟩

/-- A step without a result worth mentioning, in front of another one. -/
theorem seq (hm : m.Types ctx V Γ .nothing) (hk : ∀ a, (k a).Types ctx V Γ R) :
    (m >>= k).Types ctx V Γ R :=
  hm.bind hk

/-- What comes of two steps when everything is settled in between. The first result is still loose
afterwards. -/
theorem settle_run {R : α → Guarantee β} (hm : m.Types ctx V Γ Q)
    (hk : ∀ a, (k a).Types ctx [] (Q.facts a ++ Γ) (R a)) ⦃s s'' : Session⦄ ⦃b : β⦄ ⦃n : Nat⦄
    (hrun : (m >>= k) ctx s = .ok b s'') (hready : ctx.Ready s) (hn : n ≤ s.temps.size)
    (hV : ∀ t ∈ V, n ≤ t.index)
    (hΓ : ∀ d ∈ Γ, s.Holds ctx.setting d ∧ (d.isFirm = true ∨ d.Below n)) :
    ∃ a, s.Leads ctx.setting n s'' ∧ (∀ t ∈ Q.loose a, n ≤ t.index) ∧
      (∀ t ∈ (R a).loose b, n ≤ t.index) ∧ ∀ d ∈ (R a).facts b, s''.Holds ctx.setting d := by
  obtain ⟨a, s', hfirst, hsecond⟩ := bind_ok hrun
  obtain ⟨hleads, hloose, hfacts⟩ := hm hfirst hready hn hV hΓ
  have hΓ' : ∀ d ∈ Q.facts a ++ Γ,
      s'.Holds ctx.setting d ∧ (d.isFirm = true ∨ d.Below s'.temps.size) := by
    intro d hd
    have hholds : s'.Holds ctx.setting d := by
      rcases List.mem_append.1 hd with hd | hd
      · exact hfacts d hd
      · exact hleads.growth.holds (hΓ d hd).1 (hΓ d hd).2
    exact ⟨hholds, .inr hholds.below⟩
  have hle : n ≤ s'.temps.size := hn.trans hleads.growth.size_le
  obtain ⟨hleads', hloose', hfacts'⟩ := hk a hsecond (hready.mono hleads) le_rfl (by simp) hΓ'
  exact ⟨a, hleads.trans (hleads'.mono hle), hloose, fun t ht => hle.trans (hloose' t ht), hfacts'⟩

/-- One step after the other, where everything so far is settled. -/
theorem settle (hm : m.Types ctx V Γ Q) (hk : ∀ a, (k a).Types ctx [] (Q.facts a ++ Γ) R) :
    (m >>= k).Types ctx V Γ R := by
  intro s b s'' n hrun hready hn hV hΓ
  obtain ⟨-, hleads, -, hloose, hfacts⟩ := hm.settle_run hk hrun hready hn hV hΓ
  exact ⟨hleads, hloose, hfacts⟩

/-- A new temp is settled, and handed on in the end as loose as it was. -/
theorem settle_return {m : Lower Temp} {k : Temp → Lower Temp} (hm : m.Types ctx V Γ (.fresh shape))
    (hk : ∀ t, (k t).Types ctx [] ((Guarantee.fresh shape).facts t ++ Γ) (.returns t)) :
    (m >>= k).Types ctx V Γ (.fresh .any) := by
  intro s u s'' n hrun hready hn hV hΓ
  obtain ⟨t, hleads, hloose, -, hfacts⟩ := hm.settle_run hk hrun hready hn hV hΓ
  obtain rfl : u = t := hfacts (.same u t) (by simp)
  refine ⟨hleads, hloose, fun d hd => hfacts d ?_⟩
  simp only [Guarantee.fresh, List.mem_cons, List.not_mem_nil, or_false, or_self] at hd
  simp [hd]

/-- What a step relies on may be used to prove it right. -/
theorem intro (h : ∀ s : Session, ctx.Ready s → (∀ d ∈ Γ, s.Holds ctx.setting d) → m.Types ctx V Γ Q) :
    m.Types ctx V Γ Q :=
  fun s _ _ _ hrun hready hn hV hΓ => h s hready (fun d hd => (hΓ d hd).1) hrun hready hn hV hΓ

/-- A fact that lasts may be added where it is true. -/
theorem choose {ι : Type} (d : ι → Fact) (hfirm : ∀ x, (d x).isFirm)
    (hd : ∀ s : Session, ctx.Ready s → (∀ e ∈ Γ, s.Holds ctx.setting e) → ∃ x, s.Holds ctx.setting (d x))
    (h : ∀ x, m.Types ctx V (d x :: Γ) Q) : m.Types ctx V Γ Q := by
  intro s a s' n hrun hready hn hV hΓ
  obtain ⟨x, hx⟩ := hd s hready fun e he => (hΓ e he).1
  refine h x hrun hready hn hV fun e he => ?_
  rcases List.mem_cons.1 he with rfl | he
  · exact ⟨hx, .inl (hfirm x)⟩
  · exact hΓ e he

/-- Where nothing is loose, consequences of the facts may be added to them. -/
theorem imply (d : Fact) (hd : ∀ s : Session, (∀ e ∈ Γ, s.Holds ctx.setting e) → s.Holds ctx.setting d)
    (h : m.Types ctx [] (d :: Γ) Q) : m.Types ctx [] Γ Q := by
  intro s a s' n hrun hready hn hV hΓ
  have hholds : ∀ e ∈ d :: Γ, s.Holds ctx.setting e :=
    List.forall_mem_cons.2 ⟨hd s fun e he => (hΓ e he).1, fun e he => (hΓ e he).1⟩
  obtain ⟨hleads, hloose, hfacts⟩ := h hrun hready le_rfl (by simp) fun e he =>
    ⟨hholds e he, .inr (hholds e he).below⟩
  exact ⟨hleads.mono hn, fun t ht => hn.trans (hloose t ht), hfacts⟩

/-- A temp of a known storage has the shapes of that storage. -/
theorem shaped {storage : Storage} (t : Temp) (shape : Shape) (hs : shape.admits storage)
    (ht : .exact t storage ∈ Γ) (h : m.Types ctx [] (.has t shape :: Γ) Q) : m.Types ctx [] Γ Q :=
  imply (.has t shape) (fun _ hΓ => ⟨storage, hΓ _ ht, hs⟩) h

/-- An object fits into every field. -/
theorem fieldValue (t : Temp) (ty : Option ValueType) (ht : .has t .object ∈ Γ)
    (h : m.Types ctx [] (.has t (.field ty) :: Γ) Q) : m.Types ctx [] Γ Q := by
  refine imply (.has t (.field ty)) (fun s hΓ => ?_) h
  obtain ⟨storage, hstorage, hobject⟩ := hΓ _ ht
  exact ⟨storage, hstorage, Bool.or_eq_true_iff.2 (.inl hobject)⟩

/-- A step that never succeeds. -/
theorem of_fails (h : ∀ s a s', m ctx s ≠ .ok a s') : m.Types ctx V Γ Q :=
  fun _ _ _ _ hrun => (h _ _ _ hrun).elim

/-- A step that changes only what nothing depends on. -/
theorem aside (h : ∀ s a s', m ctx s = .ok a s' → s.SameCore s') : m.Types ctx V Γ .nothing := by
  intro s a s' n hrun hready hn hV hΓ
  have hsame := h s a s' hrun
  refine ⟨.single (.aside hsame) ?_, by simp, by simp⟩
  exact .of_same hsame.temps hsame.slots hsame.fields hsame.points

end Types

theorem pure_holds {a : α} (hloose : Q.loose a ⊆ V) (hfacts : ∀ s : Session, ctx.Ready s →
    (∀ d ∈ Γ, s.Holds ctx.setting d) → ∀ d ∈ Q.facts a, s.Holds ctx.setting d) :
    (pure a : Lower α).Types ctx V Γ Q := by
  intro s b s' n hrun hready hn hV hΓ
  cases hrun
  exact ⟨.refl _ _ _, fun t ht => hV t (hloose ht), hfacts s hready fun d hd => (hΓ d hd).1⟩

theorem pure_types {a : α} (hloose : Q.loose a ⊆ V) (hfacts : Q.facts a ⊆ Γ) :
    (pure a : Lower α).Types ctx V Γ Q :=
  pure_holds hloose fun _ _ hΓ d hd => hΓ d (hfacts hd)

/-- A temp is handed on as it is. -/
theorem return_types {t : Temp} (h : .has t .any ∈ Γ) :
    (pure t : Lower Temp).Types ctx V Γ (.returns t) := by
  refine pure_holds (by simp) fun s _ hΓ d hd => ?_
  rcases List.mem_cons.1 hd with rfl | hd
  · rfl
  · obtain rfl := List.mem_singleton.1 hd
    exact hΓ _ h

theorem done_types : (pure () : Lower Unit).Types ctx V Γ .nothing :=
  pure_types (List.nil_subset _) (List.nil_subset _)

theorem decline_types (reason : Decline) : (decline reason : Lower α).Types ctx V Γ Q :=
  .of_fails fun _ _ _ h => by cases h

theorem read_types {k : Context → Lower β} (h : (k ctx).Types ctx V Γ R) :
    (read >>= k).Types ctx V Γ R :=
  fun _ _ _ _ hrun => h (read_ok hrun)

theorem get_types {k : Session → Lower β} (h : ∀ s, (k s).Types ctx V Γ R) :
    (get >>= k).Types ctx V Γ R :=
  fun s _ _ _ hrun => h s (get_ok hrun)

/-- A look-up: it leaves the session alone, and what it finds has the property. -/
def Finds {α : Type} (ctx : Context) (P : α → Prop) (m : Lower α) : Prop :=
  ∀ ⦃s s' : Session⦄ ⦃a : α⦄, m ctx s = .ok a s' → P a ∧ s' = s

theorem pure_finds {P : α → Prop} {a : α} (h : P a) : (pure a : Lower α).Finds ctx P := by
  intro s s' b hrun
  cases hrun
  exact ⟨h, rfl⟩

theorem Finds.bind {P : α → Prop} {P' : β → Prop} (hm : m.Finds ctx P)
    (hk : ∀ a, P a → (k a).Finds ctx P') : (m >>= k).Finds ctx P' := by
  intro s s' b hrun
  obtain ⟨a, s₁, hfirst, hsecond⟩ := bind_ok hrun
  obtain ⟨ha, rfl⟩ := hm hfirst
  exact hk a ha hsecond

theorem Finds.types {P : α → Prop} (hm : m.Finds ctx P) (h : ∀ a, P a → (k a).Types ctx V Γ R) :
    (m >>= k).Types ctx V Γ R := by
  intro s b s' n hrun
  obtain ⟨a, s₁, hfirst, hsecond⟩ := bind_ok hrun
  obtain ⟨ha, rfl⟩ := hm hfirst
  exact h a ha hsecond

theorem requireBinding_finds (id : BindingId) :
    (requireBinding id).Finds ctx fun b => ctx.tree.binding? id = some b :=
  fun _ _ _ => requireBinding_ok

theorem require_types {o : Option α} (h : ∀ a, o = some a → (k a).Types ctx V Γ R) :
    (require o >>= k).Types ctx V Γ R :=
  Finds.types (fun _ _ _ => require_ok) h

theorem requireScope_types {id : ScopeId} {k : Scope → Lower β}
    (h : ∀ scope, ctx.tree.scope? id = some scope → (k scope).Types ctx V Γ R) :
    (requireScope id >>= k).Types ctx V Γ R :=
  Finds.types (fun _ _ _ => requireScope_ok) h

theorem requireBinding_types {id : BindingId} {k : Binding → Lower β}
    (h : ∀ b, ctx.tree.binding? id = some b → (k b).Types ctx V Γ R) :
    (requireBinding id >>= k).Types ctx V Γ R :=
  (requireBinding_finds id).types h

theorem modify_types {f : Session → Session} (h : ∀ s : Session, s.SameCore (f s)) :
    (modify f : Lower Unit).Types ctx V Γ .nothing :=
  .aside fun s _ _ hrun => by
    cases hrun
    exact h s

theorem report_types (event : Event) : (report event).Types ctx V Γ .nothing :=
  modify_types fun _ => ⟨rfl, rfl, rfl, rfl, rfl, rfl, rfl, rfl⟩

theorem freshLabel_types : freshLabel.Types ctx V Γ .nothing :=
  .aside fun _ _ _ hrun => by
    cases hrun
    exact ⟨rfl, rfl, rfl, rfl, rfl, rfl, rfl, rfl⟩

theorem addRegion_types (region : ExceptionRegion) : (addRegion region).Types ctx V Γ .nothing :=
  modify_types fun _ => ⟨rfl, rfl, rfl, rfl, rfl, rfl, rfl, rfl⟩

theorem forbidSuspend_types (exprs : List Expr) : (forbidSuspend exprs).Types ctx V Γ .nothing := by
  refine read_types ?_
  split
  · exact decline_types _
  · exact done_types

/-- Code inside a frame other than a routed region. -/
theorem within_types {frame : Frame} (hframe : ∀ route, frame ≠ .routed route)
    (h : m.Types { ctx with frames := frame :: ctx.frames } V Γ Q) :
    (within frame m).Types ctx V Γ Q := by
  intro s a s' n hrun hready
  have hold : ∀ route, .routed route ∈ frame :: ctx.frames → .routed route ∈ ctx.frames :=
    fun route hroute => (List.mem_cons.1 hroute).resolve_left fun heq => hframe route heq.symm
  exact h hrun ⟨hready.sound, hready.blocks, fun route hroute => hready.routes route (hold route hroute),
    fun route hroute => hready.numbered route (hold route hroute), hready.leaf⟩

/-- Code inside a routed region. -/
theorem within_routed_types {route : Route} {k : Nat} (hres : ctx.isResumable)
    (hfields : route.fields = .numbered k)
    (hstate : ∀ state, route.throwState = some state → .point state ∈ Γ)
    (h : m.Types { ctx with frames := .routed route :: ctx.frames } V Γ Q) :
    (within (.routed route) m).Types ctx V Γ Q := by
  intro s a s' n hrun hready hn hV hΓ
  refine h hrun ⟨hready.sound, hready.blocks, fun r hr => ?_, fun r hr => ?_, hready.leaf⟩ hn hV hΓ
  · rcases List.mem_cons.1 hr with heq | hr
    · cases heq
      exact ⟨hres, fun state hs => (hΓ _ (hstate state hs)).1⟩
    · exact hready.routes r hr
  · rcases List.mem_cons.1 hr with heq | hr
    · cases heq
      exact ⟨k, hfields⟩
    · exact hready.numbered r hr

/-- Code inside a block. -/
theorem withinBlock_types {scope : ScopeId} {carrier : Carrier} (storage : Storage)
    (hobject : storage.isObjectShaped) (hcarrier : .carrier carrier storage ∈ Γ)
    (h : m.Types { ctx with blocks := (scope, carrier) :: ctx.blocks } V Γ Q) :
    (withinBlock scope carrier m).Types ctx V Γ Q := by
  intro s a s' n hrun hready hn hV hΓ
  refine h hrun ⟨hready.sound, fun p hp => ?_, hready.routes, hready.numbered, hready.leaf⟩ hn hV hΓ
  rcases List.mem_cons.1 hp with rfl | hp
  · have hholds := (hΓ _ hcarrier).1
    obtain rfl : carrier.storage = storage := hholds.1
    exact ⟨hobject, hholds⟩
  · exact hready.blocks p hp

/-- Steps for all elements of a list, one after the other. -/
theorem forM_types {f : γ → Lower Unit} (l : List γ)
    (h : ∀ x ∈ l, (f x).Types ctx V Γ .nothing) : (l.forM f).Types ctx V Γ .nothing := by
  induction l with
  | nil => exact done_types
  | cons x l ih => exact (h x (.head _)).seq fun _ => ih fun y hy => h y (.tail _ hy)

/-- Results of steps for all elements of a list. -/
theorem mapM_types {f : γ → Lower α} {facts : α → List Fact} (l : List γ)
    (h : ∀ x ∈ l, ∀ Γ, (f x).Types ctx [] Γ ⟨fun _ => [], facts⟩) :
    (l.mapM f).Types ctx V Γ ⟨fun _ => [], fun results => results.flatMap facts⟩ := by
  induction l generalizing V Γ with
  | nil => exact pure_types (by simp) (by simp)
  | cons x l ih =>
    rw [List.mapM_cons]
    refine (h x (.head _) Γ).mono (List.nil_subset _) (List.Subset.refl _) |>.settle fun a => ?_
    refine (ih fun y hy => h y (.tail _ hy)).settle fun rest => pure_types (by simp) ?_
    simp

/-! ### Instructions -/

/-- The instruction is appended, and nothing else. -/
theorem emit_leads (h : i.Backed w s) (hi : i.callsSuper = false) :
    s.Leads w n { s with code := s.code.push i } := by
  have hstep := Session.Step.emit h
  rw [hi, Bool.false_or] at hstep
  exact .single hstep (.of_same rfl rfl rfl rfl)

theorem emit_types (h : ∀ d ∈ i.demands, .has d.1 d.2 ∈ Γ)
    (hplain : i.isOrdinary) (hresult : i.result? = none) :
    (emit i).Types ctx V Γ .nothing := by
  intro s a s' n hrun hready hn hV hΓ
  cases hrun
  refine ⟨emit_leads ⟨⟨fun d hd => (hΓ _ (h d hd)).1, Instr.fitsStorage_of_isOrdinary hplain⟩, ?_,
    Instr.founded_of_isOrdinary hplain⟩ (Instr.callsSuper_of_isOrdinary hplain), by simp, by simp⟩
  intro t ht
  rw [hresult] at ht
  cases ht

theorem perform_types {effect : Effect} (h : ∀ d ∈ effect.demands, .has d.1 d.2 ∈ Γ)
    (hplain : (Instr.perform effect).isOrdinary) :
    (perform effect).Types ctx V Γ .nothing :=
  emit_types h hplain rfl

theorem place_types (label : Label) : (place label).Types ctx V Γ .nothing :=
  emit_types (by simp [Instr.demands]) rfl rfl

theorem branch_types (target : Label) : (branch target).Types ctx V Γ .nothing :=
  emit_types (by simp [Instr.demands]) rfl rfl

theorem branchIf_types {expected : Bool} {condition : Temp} {target : Label}
    (h : .has condition .bool ∈ Γ) : (branchIf expected condition target).Types ctx V Γ .nothing :=
  emit_types (by simpa [Instr.demands] using h) rfl rfl

namespace Types

variable {R : Guarantee α}

theorem label {k : Label → Lower α} (hk : ∀ label, (k label).Types ctx V Γ R) :
    (freshLabel >>= k).Types ctx V Γ R :=
  freshLabel_types.seq hk

variable {k : Unit → Lower α}

theorem place {label : Label} (hk : (k ()).Types ctx V Γ R) :
    (Lower.place label >>= k).Types ctx V Γ R :=
  (place_types label).seq fun _ => hk

theorem branch {target : Label} (hk : (k ()).Types ctx V Γ R) :
    (Lower.branch target >>= k).Types ctx V Γ R :=
  (branch_types target).seq fun _ => hk

theorem branchIf {expected : Bool} {condition : Temp} {target : Label}
    (h : .has condition .bool ∈ Γ) (hk : (k ()).Types ctx V Γ R) :
    (Lower.branchIf expected condition target >>= k).Types ctx V Γ R :=
  (branchIf_types h).seq fun _ => hk

end Types

/-- A new temp is idle. -/
theorem idle_allocate (hs : s.Sound w) (storage : Storage) :
    (s.allocate storage).Idle ⟨s.temps.size⟩ := by
  refine ⟨by simp [Session.allocate], fun i hi => ⟨fun huse => ?_, fun hresult => ?_⟩⟩
  · exact absurd (hs.range i hi _ (.inl huse)) (Nat.lt_irrefl _)
  · exact absurd (hs.range i hi _ (.inr hresult)) (Nat.lt_irrefl _)

/-- A new temp is defined by an instruction that reads others. -/
theorem define_leads (hs : s.Sound w) (hknown : storage.isKnown)
    (hoperands : ∀ d ∈ op.demands, s.layout.Has d.1 d.2)
    (hslot : (Instr.define ⟨s.temps.size⟩ op).FitsStorage (s.allocate storage).layout)
    (hfounded : (Instr.define ⟨s.temps.size⟩ op).Founded w (s.allocate storage)) :
    s.Leads w n { s.allocate storage with code := s.code.push (.define ⟨s.temps.size⟩ op) } := by
  have hext : s.Extends s.temps.size (s.allocate storage) := Session.extends_allocate storage
  refine .trans (.single (.allocate hknown) (Session.extends_allocate storage))
    (emit_leads ⟨⟨?_, hslot⟩, ?_, hfounded⟩ rfl)
  · intro d hd
    exact hext.holds (w := w) (d := .has d.1 d.2) (hoperands d hd)
      (.inr (Session.lt_size_of_has (hoperands d hd)))
  · intro t ht
    cases ht
    refine ⟨idle_allocate hs storage, fun huse => ?_⟩
    obtain ⟨shape, hshape⟩ := Instr.exists_demand huse
    exact absurd (Session.lt_size_of_has (hoperands _ hshape)) (Nat.lt_irrefl _)

/-- Behind a definition the new temp has its storage. -/
theorem layout_allocate (s : Session) (storage : Storage) :
    (s.allocate storage).layout.temp ⟨s.temps.size⟩ = some storage :=
  Array.getElem?_push_size

theorem define_run (storage : Storage) (op : Operation) (hshape : shape.admits storage) (hready : ctx.Ready s) (hn : n ≤ s.temps.size)
    (hoperands : ∀ d ∈ op.demands, s.layout.Has d.1 d.2)
    (hslot : (Instr.define ⟨s.temps.size⟩ op).FitsStorage (s.allocate storage).layout)
    (hfounded : (Instr.define ⟨s.temps.size⟩ op).Founded ctx.setting (s.allocate storage)) :
    let s' := { s.allocate storage with code := s.code.push (.define ⟨s.temps.size⟩ op) }
    s.Leads ctx.setting n s' ∧ (∀ t ∈ (Guarantee.fresh shape).loose ⟨s.temps.size⟩, n ≤ t.index) ∧
      ∀ d ∈ (Guarantee.fresh shape).facts ⟨s.temps.size⟩, s'.Holds ctx.setting d := by
  have hknown := Shape.isKnown_of_admits hshape
  refine ⟨define_leads hready.sound hknown hoperands hslot hfounded, ?_, ?_⟩
  · simpa using hn
  · have hhas : ∀ shape : Shape, shape.admits storage = true →
        Session.Holds ctx.setting { s.allocate storage with code := s.code.push (.define ⟨s.temps.size⟩ op) }
          (.has ⟨s.temps.size⟩ shape) :=
      fun _ hadmits => ⟨storage, layout_allocate s storage, hadmits⟩
    rintro d hd
    rcases List.mem_cons.1 hd with rfl | hd
    · exact hhas shape hshape
    · obtain rfl := List.mem_singleton.1 hd
      exact hhas .any hknown

theorem define_raw_types (hshape : shape.admits storage)
    (h : ∀ s : Session, s.Sound ctx.setting → (∀ d ∈ Γ, s.Holds ctx.setting d) →
      (∀ d ∈ op.demands, s.layout.Has d.1 d.2) ∧
      (Instr.define ⟨s.temps.size⟩ op).FitsStorage (s.allocate storage).layout ∧
      (Instr.define ⟨s.temps.size⟩ op).Founded ctx.setting (s.allocate storage)) :
    (define storage op).Types ctx V Γ (.fresh shape) := by
  intro s a s' n hrun hready hn hV hΓ
  cases hrun
  obtain ⟨hoperands, hslot, hfounded⟩ := h s hready.sound fun d hd => (hΓ d hd).1
  exact define_run storage op hshape hready hn hoperands hslot hfounded

/-- A new temp, defined by an operation that needs nothing but its operands. -/
theorem define_types (shape : Shape)
    (h : ∀ d ∈ op.demands, .has d.1 d.2 ∈ Γ) (hshape : shape.admits storage)
    (hplain : op.isOrdinary) : (define storage op).Types ctx V Γ (.fresh shape) :=
  define_raw_types hshape fun _ _ hΓ => ⟨fun d hd => hΓ _ (h d hd),
    Instr.fitsStorage_of_isOrdinary (i := .define _ op) hplain,
    Instr.founded_of_isOrdinary (i := .define _ op) hplain⟩

end Lower

end ScriptLowering
