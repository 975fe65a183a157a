import ScriptLowering.Proofs.Separation

/-!
# The slots of a compiled body

The table of slots says what the code does: the slots marked as assigned once are those with one
store, and every slot in the code has an entry. A slot that is the home of a binding is the only
one: a binding gets its home once, and the passes only drop slots.

## Main results

* `Session.Step.homed`: what every step of a lowering keeps true of the homes of bindings;
* `Function.compile_slotTable`: the table of slots of a compiled body is exact.
-/

namespace ScriptLowering

/-! ### Homes of bindings -/

namespace Session

variable {w : Setting} {s s' : Session}

/-- A slot that carries a binding is the home of the binding. -/
def Homed (s : Session) : Prop :=
  ∀ i e id, s.slots[i]? = some e → e.info.binding = some id →
    s.placements.lookup id = some (.slot ⟨i⟩)

theorem Homed.of_same (h : s.Homed) (hslots : s'.slots = s.slots)
    (hplacements : s'.placements = s.placements) : s'.Homed := by
  rw [Homed, hslots, hplacements]
  exact h

/-- A binding with a home keeps it when a binding without one gets its own. -/
theorem lookup_cons_of_new {id id' : BindingId} {home home' : Placement}
    (hid : s.placements.lookup id = some home) (hnew : s.placements.lookup id' = none) :
    ((id', home') :: s.placements).lookup id = some home := by
  have hne : id ≠ id' := by
    rintro rfl
    cases hid.symm.trans hnew
  rw [List.lookup_cons, beq_eq_false_iff_ne.2 hne]
  exact hid

theorem Step.homed (h : s.Homed) (hstep : Step w s s') : s'.Homed := by
  cases hstep with
  | aside hsame => exact h.of_same hsame.slots hsame.placements
  | @freshSlot info _ hnew =>
    intro i e id he hid
    rw [addSlot, Array.getElem?_push] at he
    split at he
    · cases he
      subst i
      simp only at hid
      simp [addSlot, hid]
    · have hlookup := h i e id he hid
      cases hbinding : info.binding with
      | none =>
        rw [addSlot, hbinding]
        exact hlookup
      | some id' =>
        rw [addSlot, hbinding]
        exact lookup_cons_of_new hlookup (hnew id' hbinding).1
  | @store slot value =>
    intro i e id he hid
    rw [Session.store, Array.getElem?_modify] at he
    split at he
    · obtain ⟨e', he', rfl⟩ := Option.map_eq_some_iff.1 he
      exact h i e' id he' hid
    · exact h i e id he hid
  | home _ _ hnew => exact fun i e id he hid => lookup_cons_of_new (h i e id he hid) hnew
  | _ => exact h.of_same rfl rfl

end Session

/-- The slots carry different bindings. -/
def Body.BindsApart (b : Body) : Prop :=
  b.slots.toList.Pairwise fun info info' => ∀ id, info.binding = some id → info'.binding ≠ some id

/-- The slots of a lowered body carry different bindings: the home of a binding is one slot. -/
theorem Course.bindsApart {w : Setting} {entry s : Session} (h : Course w entry s) (f : Function) :
    (s.toBody f).BindsApart := by
  have hhomed : s.Homed := h.invariant (fun _ _ _ he => by simp at he) fun _ hs hstep => hstep.homed hs
  have hinfos : (s.toBody f).slots.toList = s.slots.toList.map (·.info) := by simp [Session.toBody]
  rw [Body.BindsApart, hinfos, List.pairwise_map, List.pairwise_iff_getElem]
  intro i j hi hj hlt id hid hid'
  have hi' := hhomed i _ id (Array.getElem?_eq_getElem (by simpa using hi)) (by simpa using hid)
  have hj' := hhomed j _ id (Array.getElem?_eq_getElem (by simpa using hj)) (by simpa using hid')
  rw [hi'] at hj'
  cases hj'
  exact hlt.false

/-! ### Slots under the passes -/

/-- What is picked from a list is in it, in order. -/
theorem TypeNormalization.filterMap_zip_sublist {α : Type} (xs : List α) (kept : List Bool) :
    ((xs.zip kept).filterMap fun (x, isKept) => if isKept then some x else none).Sublist xs := by
  induction xs generalizing kept with
  | nil => exact .slnil
  | cons x xs ih =>
    cases kept with
    | nil => exact List.nil_sublist _
    | cons isKept kept =>
      cases isKept with
      | true => exact (ih kept).cons_cons x
      | false => exact (ih kept).cons x

/-- The passes keep or drop slots. -/
theorem TypeNormalization.compactSlots_slots (b : Body) :
    (compactSlots b).1.slots.toList.Sublist b.slots.toList := by
  unfold compactSlots
  dsimp only
  split
  · exact .refl _
  · rw [Array.toList_filterMap, Array.toList_zip]
    exact filterMap_zip_sublist _ _

theorem Body.passIf_slots (pass : Body → Body × Nat)
    (h : ∀ b : Body, (pass b).1.slots.toList.Sublist b.slots.toList) (b : Body) (isEnabled : Bool) :
    (b.passIf isEnabled pass).1.slots.toList.Sublist b.slots.toList := by
  unfold passIf
  split
  · exact h b
  · exact .refl _

theorem Body.optimize_slots (b : Body) (registry : Registry) (options : Options) :
    (b.optimize registry options).1.slots.toList.Sublist b.slots.toList := by
  have hcoercions := passIf_slots reuseCoercions (fun _ => .refl _)
  have htypes := passIf_slots normalizeTypes fun _ => TypeNormalization.compactSlots_slots _
  have hmembers := passIf_slots (bindMemberCalls · registry) (fun _ => .refl _)
  exact (hmembers _ _).trans ((htypes _ _).trans (hcoercions b _))

/-- The table of slots of a compiled body is exact: the slots marked as assigned once are those with
one store, every slot that the code or the marks name has an entry, and no two entries carry the
same binding. -/
theorem Function.compile_slotTable {f : Function} {tree : ScopeTree} {registry : Registry}
    {options : Options} {body : Body} (h : (f.compile tree registry options).result = .ok body) :
    (∀ slot, slot ∈ body.singleAssignment ↔ body.storeCount slot = 1) ∧
      (∀ access ∈ slotAccesses body.code, access.2.index < body.slots.size) ∧
      (∀ slot ∈ body.singleAssignment, slot.index < body.slots.size) ∧ body.BindsApart := by
  obtain ⟨scope, entry, s, -, rfl, hcourse⟩ := exists_compiled h
  obtain ⟨hconsistent, -⟩ := (s.toBody f).optimize_tends registry options (hcourse.consistent f)
  exact ⟨hconsistent.single, hconsistent.slots, hconsistent.marked,
    (hcourse.bindsApart f).sublist ((s.toBody f).optimize_slots registry options)⟩

/-- `let own = 1; { let inner = 2; return own + inner; }`. -/
def sumInBlock : Function where
  name := "f"
  kind := .function
  scope := ⟨1⟩
  body := [.declare .lexical [⟨.binding ⟨0⟩, some (.number (.ofNat 1))⟩],
    .block (some ⟨2⟩) [.declare .lexical [⟨.binding ⟨1⟩, some (.number (.ofNat 2))⟩],
      .ret (some (.binary .add (.ident ⟨0⟩) (.ident ⟨1⟩)))]]

/-- Variables of the same name get a slot each, and both slots are assigned once. -/
theorem compile_slotTable_shadowing :
    ∃ body, (sumInBlock.compile (.ofBlock "x" "x") {} {}).result = .ok body ∧
      body.slots.toList.map (·.binding) = [some ⟨0⟩, some ⟨1⟩] ∧
      body.storeCount ⟨0⟩ = 1 ∧ body.storeCount ⟨1⟩ = 1 ∧ body.BindsApart := by
  have hmarked : ∀ body ∈ (sumInBlock.compile (.ofBlock "x" "x") {} {}).result.toOption,
      body.slots.toList.map (·.binding) = [some ⟨0⟩, some ⟨1⟩] ∧
        ⟨0⟩ ∈ body.singleAssignment ∧ ⟨1⟩ ∈ body.singleAssignment := by decide +kernel
  have hcompiles : (sumInBlock.compile (.ofBlock "x" "x") {} {}).result.isOk = true := by
    decide +kernel
  cases hresult : (sumInBlock.compile (.ofBlock "x" "x") {} {}).result with
  | error halt =>
    rw [hresult] at hcompiles
    cases hcompiles
  | ok body =>
    rw [hresult] at hmarked
    obtain ⟨hbindings, hown, hinner⟩ := hmarked body rfl
    obtain ⟨hsingle, -, -, hapart⟩ := Function.compile_slotTable hresult
    exact ⟨body, rfl, hbindings, (hsingle _).1 hown, (hsingle _).1 hinner, hapart⟩

end ScriptLowering
