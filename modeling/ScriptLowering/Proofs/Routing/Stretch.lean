import ScriptLowering.Proofs.RoutedTry
import ScriptLowering.Proofs.Routing.Machine

/-!
# Stretches of code

The lowering only adds to the code, and so what a part of it emits stays where it is. A *stretch* is
the run of a part of the lowering between two sessions whose code the program contains. The run of a
sequence is made of stretches, one behind the other, and in each of them the machine does what was
emitted there.
-/

namespace ScriptLowering

open Lower

/-! ### Growth -/

/-- Nothing that was emitted is taken back. -/
def growth : Discipline where
  leads _ s s' := s.Grows s'
  refl _ s := .refl s
  trans h h' := h.trans h'

theorem growth_loose : growth.Loose where
  within _ h := h
  withinBlock h := h
  aside _ h := (Session.SameCode.of_eq h.code h.temps h.resumePoints h.routedCount).grows
  allocate := (Session.Moves.allocate _).grows
  fresh := trivial
  emit _ := .push rfl rfl rfl
  suspend _ := .push rfl rfl rfl
  fuse h := (fuseAddition_moves h).grows
  resumePoint := ⟨List.Subset.refl _, List.prefix_refl _, by simp, le_rfl⟩
  entered h := (h rfl).elim
  declined _ _ := trivial
  tree _ := nofun
  resumable _ := nofun
  closed := nofun
  dangling _ _ := trivial
  anywhere h := h
  raise _ := .push rfl rfl rfl
  region {_ s r} := by
    have hsame : s.SameCode { s with regions := s.regions.push r } := .of_eq rfl rfl rfl rfl
    exact hsame.grows

theorem growth_lawful : growth.Lawful where
  toPlain := growth_loose.plain
  openRoute := @fun _ => .of_run (fun _ _ _ => trivial) fun _ h => by
    cases h
    exact ⟨⟨List.Subset.refl _, List.prefix_refl _, List.prefix_refl _, Nat.le_succ _⟩, nofun⟩

instance growing_steps : growth.simulation.Lawful :=
  growth_lawful.simulation

namespace Lower

/-- Nothing that was emitted before the computation is taken back in it. -/
class Growing {α : Type} (m : Lower α) : Prop where
  keeps : growth.Keeps [] (fun _ => []) m

section Growing

variable {α β : Type} {m : Lower α} {ctx : Context} {s s' : Session} {a : α}

theorem Growing.grows [h : Growing m] (hrun : m ctx s = .ok a s') : s.Grows s' :=
  (h.keeps.ok trivial nofun hrun).1

/-- What follows the simulation takes nothing back, whatever temps it is handed. -/
theorem Growing.of_relates [Linkable α] (T : List Temp)
    (h : growth.simulation.Relates (T.map fun t => (t, t)) m m) : Growing m :=
  ⟨fun _ _ hctx _ => Discipline.Keeps.of_relates (R := fun _ => []) h (fun _ => nofun) hctx
    fun _ _ => trivial⟩

instance (priority := high) [hm : Growing m] {f : α → Lower β} [hf : ∀ a, Growing (f a)] :
    Growing (m >>= f) :=
  ⟨hm.keeps.bind fun a => (hf a).keeps⟩

instance : Growing (pure a : Lower α) :=
  ⟨.pure (List.nil_subset _)⟩

instance (i : Instr) : Growing (emit i) :=
  ⟨.of_ok fun _ _ _ => ⟨.push rfl rfl rfl, List.forall_mem_nil _⟩⟩

instance (l : Label) : Growing (place l) :=
  inferInstanceAs (Growing (emit _))

instance (l : Label) : Growing (branch l) :=
  inferInstanceAs (Growing (emit _))

instance (b : Bool) (t : Temp) (l : Label) : Growing (branchIf b t l) :=
  inferInstanceAs (Growing (emit _))

instance (name : String) (storage : Storage) : Growing (loadState name storage) :=
  .of_relates [] (loadState_relates name storage)

instance (name : String) (t : Temp) : Growing (storeState name t) :=
  .of_relates [t] (storeState_relates (.head _))

instance (name : String) (value : Bool) : Growing (setFlag name value) :=
  .of_relates [] (setFlag_relates name value)

instance (name : String) : Growing (clearState name) :=
  .of_relates [] (clearState_relates name)

instance (t : Temp) : Growing (asObject t) :=
  .of_relates [t] (asObject_relates (.head _))

instance (t : Temp) : Growing (throwValue t) :=
  .of_relates [t] (throwValue_relates (.head _))

instance (t : Temp) : Growing (returnValue t) :=
  .of_relates [t] (returnValue_relates (.head _))

instance (fields : PendingFields) : Growing (notePendingException fields) :=
  .of_relates [] (notePendingException_relates fields)

end Growing

end Lower

/-! ### Runs through the code -/

variable {V W : Type}

@[simp] theorem Datum.isTrue_bool (b : Bool) : (Datum.literal (.bool b) : Datum V).isTrue = b := rfl

namespace Machine

theorem temps_set (σ : Machine V W) (t : Temp) (v : Datum V) : (σ.set t v).temps t = v :=
  Function.update_self ..

/-- Stores a constant in a state field, by way of a temp. -/
def put (σ : Machine V W) (t : Temp) (f : FieldRef) (value : Literal) : Machine V W :=
  (σ.set t (.literal value)).store f (.literal value)

end Machine

/-- The machine runs through the positions of `S` and is at `n` then. -/
def Program.Reaches (p : Program V W) (S : Set Nat) (σ τ : Machine V W) (n : Nat) : Prop :=
  p.RunOn S σ τ ∧ τ.pc = n

theorem Program.Reaches.trans {p : Program V W} {S : Set Nat} {σ τ υ : Machine V W} {m n : Nat}
    (h : p.Reaches S σ τ m) (h' : p.Reaches S τ υ n) : p.Reaches S σ υ n :=
  ⟨h.1.trans h'.1, h'.2⟩

theorem Program.Reaches.mono {p : Program V W} {S S' : Set Nat} {σ τ : Machine V W} {n : Nat}
    (h : p.Reaches S σ τ n) (hS : S ⊆ S') : p.Reaches S' σ τ n :=
  ⟨h.1.mono hS, h.2⟩

/-- One instruction was emitted. -/
structure Session.Pushed (s : Session) (i : Instr) (s' : Session) : Prop where
  code : s'.code = s.code.push i
  points : s'.resumePoints = s.resumePoints
  routed : s'.routedCount = s.routedCount

namespace Session.Pushed

variable {s s' : Session} {i : Instr}

theorem size (h : s.Pushed i s') : s'.code.size = s.code.size + 1 := by
  simp [h.code]

end Session.Pushed

namespace Lower

variable {p : Program V W} {ctx : Context} {A Z s s' : Session} {name : String} {t : Temp}
variable {b : Bool} {l : Label} {n : Nat} {storage : Storage} {σ : Machine V W}

/-! ### Emission -/

theorem emit_pushes {i : Instr} (h : emit i ctx s = .ok () s') : s.Pushed i s' := by
  cases h
  exact ⟨rfl, rfl, rfl⟩

theorem stateField_same {field : FieldRef} (h : stateField name ctx s = .ok field s') :
    field = ⟨ctx.leafName, name⟩ ∧ s'.code = s.code ∧ s'.temps = s.temps ∧
      s'.resumePoints = s.resumePoints ∧ s'.routedCount = s.routedCount := by
  obtain ⟨_, s₁, h₁, h₂⟩ := bind_ok h
  cases h₁
  cases h₂
  refine ⟨rfl, ?_⟩
  dsimp only
  split <;> exact ⟨rfl, rfl, rfl, rfl⟩

theorem storeState_pushes (h : storeState name t ctx s = .ok () s') :
    s.Pushed (.perform (.storeLeafField ⟨ctx.leafName, name⟩ t)) s' := by
  obtain ⟨field, s₁, h₁, h₂⟩ := bind_ok h
  obtain ⟨rfl, hcode, -, hpoints, hrouted⟩ := stateField_same h₁
  cases h₂
  exact ⟨by rw [← hcode], hpoints, hrouted⟩

theorem loadState_pushes (h : loadState name storage ctx s = .ok t s') :
    s.Pushed (.define t (.loadLeafField ⟨ctx.leafName, name⟩)) s' ∧ t = ⟨s.temps.size⟩ ∧
      s'.temps = s.temps.push storage := by
  obtain ⟨field, s₁, h₁, h₂⟩ := bind_ok h
  obtain ⟨rfl, hcode, htemps, hpoints, hrouted⟩ := stateField_same h₁
  cases h₂
  exact ⟨⟨by rw [← hcode], hpoints, hrouted⟩, by rw [← htemps], by rw [← htemps]⟩

theorem loadState_object (h : loadState name storage ctx s = .ok t s') :
    s'.temps[t.index]? = some storage := by
  obtain ⟨-, rfl, htemps⟩ := loadState_pushes h
  simp [htemps]

theorem clearState_temps (h : clearState name ctx s = .ok () s') :
    s'.temps.size = s.temps.size + 1 := by
  obtain ⟨t, s₁, h₁, h₂⟩ := bind_ok h
  obtain ⟨field, s₂, h₃, h₄⟩ := bind_ok h₂
  obtain ⟨-, -, htemps, -⟩ := stateField_same h₃
  cases h₁
  cases h₄
  simp [htemps]

/-! ### Stretches -/

/-- The run of a part of the lowering, as a part of what happens between two sessions. -/
structure Stretch {α : Type} (A Z : Session) (m : Lower α) (ctx : Context) (s : Session) (a : α)
    (s' : Session) : Prop where
  run : m ctx s = .ok a s'
  before : A.Grows s
  grows : s.Grows s'
  after : s'.Grows Z

namespace Stretch

section

variable {α β : Type} {m : Lower α} {a : α}

theorem whole [Growing m] (h : m ctx s = .ok a s') : Stretch s s' m ctx s a s' :=
  ⟨h, .refl s, Growing.grows h, .refl s'⟩

/-- A sequence is made of two stretches. -/
theorem split [Growing m] {k : α → Lower β} [∀ a, Growing (k a)] {b : β}
    (h : Stretch A Z (m >>= k) ctx s b s') :
    ∃ a s₁, Stretch A Z m ctx s a s₁ ∧ Stretch A Z (k a) ctx s₁ b s' := by
  obtain ⟨a, s₁, h₁, h₂⟩ := bind_ok h.run
  have hgrows₁ := Growing.grows h₁
  have hgrows₂ := Growing.grows h₂
  exact ⟨a, s₁, ⟨h₁, h.before, hgrows₁, hgrows₂.trans h.after⟩,
    ⟨h₂, h.before.trans hgrows₁, hgrows₂, h.after⟩⟩

/-- A stretch by itself. -/
theorem own (h : Stretch A Z m ctx s a s') : Stretch s s' m ctx s a s' :=
  ⟨h.run, .refl s, h.grows, .refl s'⟩

theorem holds (h : Stretch A Z m ctx s a s') (hp : p.Holds A Z) : p.Holds s s' :=
  hp.between h.before h.after

theorem subset (h : Stretch A Z m ctx s a s') :
    Set.Ico s.code.size s'.code.size ⊆ Set.Ico A.code.size Z.code.size :=
  Set.Ico_subset_Ico h.before.size_le h.after.size_le

/-- Where one instruction was emitted, the machine is at it. -/
theorem emitted {i : Instr} (h : Stretch A Z m ctx s a s') (hi : s.Pushed i s')
    (hadd : i.isAddition = false) (hp : p.Holds A Z) (hσ : σ.pc = s.code.size) :
    p.code[σ.pc]? = some i ∧ σ.pc ∈ Set.Ico A.code.size Z.code.size ∧ σ.pc + 1 = s'.code.size := by
  have hsize := hi.size
  refine ⟨hσ ▸ (h.holds hp).emitted hi.code hadd, h.subset ?_, by omega⟩
  rw [hσ, Set.mem_Ico]
  omega

end

theorem label (h : Stretch A Z (Lower.place l) ctx s () s') (hp : p.Holds A Z) :
    p.code[s.code.size]? = some (.label l) :=
  (h.holds hp).emitted (emit_pushes h.run).code rfl

theorem place (h : Stretch A Z (Lower.place l) ctx s () s') (hp : p.Holds A Z)
    (hσ : σ.pc = s.code.size) :
    p.Reaches (Set.Ico A.code.size Z.code.size) σ σ.next s'.code.size := by
  obtain ⟨hcode, hmem, hpc⟩ := h.emitted (emit_pushes h.run) rfl hp hσ
  exact ⟨.step hmem (.label hcode), hpc⟩

theorem branch (h : Stretch A Z (Lower.branch l) ctx s () s') (hp : p.Holds A Z)
    (hσ : σ.pc = s.code.size) (hn : p.code[n]? = some (.label l)) :
    p.Reaches (Set.Ico A.code.size Z.code.size) σ (σ.goto n) n := by
  obtain ⟨hcode, hmem, -⟩ := h.emitted (emit_pushes h.run) rfl hp hσ
  exact ⟨.step hmem (.branch hcode hn), rfl⟩

theorem taken (h : Stretch A Z (branchIf b t l) ctx s () s') (hp : p.Holds A Z)
    (hσ : σ.pc = s.code.size) (hn : p.code[n]? = some (.label l)) (ht : (σ.temps t).isTrue = b) :
    p.Reaches (Set.Ico A.code.size Z.code.size) σ (σ.goto n) n := by
  obtain ⟨hcode, hmem, -⟩ := h.emitted (emit_pushes h.run) rfl hp hσ
  exact ⟨.step hmem (.taken hcode ht hn), rfl⟩

theorem skipped (h : Stretch A Z (branchIf b t l) ctx s () s') (hp : p.Holds A Z)
    (hσ : σ.pc = s.code.size) (ht : (σ.temps t).isTrue ≠ b) :
    p.Reaches (Set.Ico A.code.size Z.code.size) σ σ.next s'.code.size := by
  obtain ⟨hcode, hmem, hpc⟩ := h.emitted (emit_pushes h.run) rfl hp hσ
  exact ⟨.step hmem (.skipped hcode ht), hpc⟩

theorem load (h : Stretch A Z (loadState name storage) ctx s t s') (hp : p.Holds A Z)
    (hσ : σ.pc = s.code.size) :
    p.Reaches (Set.Ico A.code.size Z.code.size) σ (σ.set t (σ.fields ⟨ctx.leafName, name⟩))
      s'.code.size := by
  obtain ⟨hcode, hmem, hpc⟩ := h.emitted (loadState_pushes h.run).1 rfl hp hσ
  exact ⟨.step hmem (.load hcode), hpc⟩

theorem store (h : Stretch A Z (storeState name t) ctx s () s') (hp : p.Holds A Z)
    (hσ : σ.pc = s.code.size) :
    p.Reaches (Set.Ico A.code.size Z.code.size) σ (σ.store ⟨ctx.leafName, name⟩ (σ.temps t))
      s'.code.size := by
  obtain ⟨hcode, hmem, hpc⟩ := h.emitted (storeState_pushes h.run) rfl hp hσ
  exact ⟨.step hmem (.store hcode), hpc⟩

/-- A constant goes into a state field. -/
theorem storeLiteral {value : Literal}
    (h : Stretch A Z (do storeState name (← define storage (.literal value))) ctx s () s')
    (hp : p.Holds A Z) (hσ : σ.pc = s.code.size) :
    p.Reaches (Set.Ico A.code.size Z.code.size) σ (σ.put ⟨s.temps.size⟩ ⟨ctx.leafName, name⟩ value)
      s'.code.size := by
  obtain ⟨t, s₁, h₁, h₂⟩ := bind_ok h.run
  obtain ⟨rfl, hpushed⟩ : t = ⟨s.temps.size⟩ ∧ s.Pushed (.define t (.literal value)) s₁ := by
    cases h₁
    exact ⟨rfl, rfl, rfl, rfl⟩
  have hgrows : s.Grows s₁ := .push hpushed.code hpushed.points hpushed.routed
  have hstore : Stretch A Z (storeState name ⟨s.temps.size⟩) ctx s₁ () s' :=
    ⟨h₂, h.before.trans hgrows, Growing.grows h₂, h.after⟩
  have hdefine : Stretch A Z (define storage (.literal value)) ctx s ⟨s.temps.size⟩ s₁ :=
    ⟨h₁, h.before, hgrows, hstore.grows.trans h.after⟩
  obtain ⟨hcode, hmem, hpc⟩ := hdefine.emitted hpushed rfl hp hσ
  have hnext := hstore.store hp (σ := σ.set ⟨s.temps.size⟩ (.literal value)) hpc
  rw [Machine.temps_set] at hnext
  exact ⟨(Program.RunOn.step hmem (.literal hcode)).trans hnext.1, hnext.2⟩

theorem setFlag (h : Stretch A Z (Lower.setFlag name b) ctx s () s') (hp : p.Holds A Z)
    (hσ : σ.pc = s.code.size) :
    p.Reaches (Set.Ico A.code.size Z.code.size) σ
      (σ.put ⟨s.temps.size⟩ ⟨ctx.leafName, name⟩ (.bool b)) s'.code.size :=
  storeLiteral h hp hσ

theorem clearState (h : Stretch A Z (Lower.clearState name) ctx s () s') (hp : p.Holds A Z)
    (hσ : σ.pc = s.code.size) :
    p.Reaches (Set.Ico A.code.size Z.code.size) σ
      (σ.put ⟨s.temps.size⟩ ⟨ctx.leafName, name⟩ .null) s'.code.size :=
  storeLiteral h hp hσ

end Stretch

end Lower

end ScriptLowering
