import ScriptLowering.Proofs.Course.Lowered

/-!
# Receiver classes from slots

The pass that binds member calls walks over the code once, in the order of the text, and lets the
class of a value flow through a slot that is stored once, from the store to the loads behind it. The
store is in front of the load, but it need not be executed before it: in
`if (p) { var c = new C(); } c.m();` the class of `c` is taken to be `C` where `p` is false as well.
All that can go wrong is a jump over the store. A slot that belongs to no variable is always stored
before it is loaded.

## Main results

* `Function.lower_stores_class`: where the class of a loaded slot comes from;
* `Function.lower_infers_unset_class`: a class that is inferred for a variable without a value.
-/

namespace ScriptLowering

namespace MemberBinding

/-! ### The walk over the code -/

variable {c : Classes} {single : List Slot} {i : Instr} {slot : Slot} {C : String}

/-- Only a store of a value whose class is known adds the class of a slot. -/
theorem Classes.lookup_step (h : (c.step single i).slots.lookup slot = some C) :
    c.slots.lookup slot = some C ∨
      ∃ value, i = .perform (.storeSlot slot value) ∧ slot ∈ single ∧ c.of? value = some C := by
  unfold Classes.step at h
  split at h
  · exact .inl h
  · split at h <;> exact .inl h
  · split at h
    · rename_i stored value _ _ D hsingle hvalue
      by_cases heq : slot = stored
      · subst heq
        obtain rfl : D = C := by simpa using h
        exact .inr ⟨value, rfl, by simpa using hsingle, hvalue⟩
      · rw [List.lookup_cons, beq_eq_false_iff_ne.2 heq] at h
        exact .inl h
    · exact .inl h
  · split at h <;> exact .inl h
  · exact .inl h

/-- The body up to a position. -/
def upTo (b : Body) (n : Nat) : Body :=
  { b with code := b.code.take n }

variable {b : Body} {n : Nat}

theorem receiverClasses_upTo_succ (b : Body) (n : Nat) : receiverClasses (upTo b (n + 1)) =
    (b.code[n]?).elim (receiverClasses (upTo b n))
      ((receiverClasses (upTo b n)).step b.singleAssignment) := by
  rw [receiverClasses, upTo, List.take_add_one, List.foldl_append]
  cases b.code[n]? <;> rfl

theorem exists_store (h : (receiverClasses (upTo b n)).slots.lookup slot = some C) :
    ∃ k < n, ∃ value, b.code[k]? = some (.perform (.storeSlot slot value)) ∧
      slot ∈ b.singleAssignment ∧ (receiverClasses (upTo b k)).of? value = some C := by
  induction n with
  | zero => cases h
  | succ n ih =>
    rw [receiverClasses_upTo_succ] at h
    cases hi : b.code[n]? with
    | none =>
      rw [hi] at h
      exact (ih h).imp fun k hk => hk.imp_left Nat.lt_succ_of_lt
    | some i =>
      rw [hi] at h
      rcases Classes.lookup_step h with h | ⟨value, rfl, hsingle, hvalue⟩
      · exact (ih h).imp fun k hk => hk.imp_left Nat.lt_succ_of_lt
      · exact ⟨n, Nat.lt_succ_self n, value, hi, hsingle, hvalue⟩

end MemberBinding

/-! ### Lowered bodies -/

open MemberBinding

variable {f : Function} {tree : ScopeTree} {registry : Registry} {options : Options} {body : Body}

/-- Say that the walk over the code knows a class for the slot where it gets to a load. Then the
slot is stored once, in front of the load, and the class is that of the stored value. A way from the
entry to the load passes the store or jumps over it. If the slot belongs to no variable, every way
to the load passes the store. -/
theorem Function.lower_stores_class (h : (f.lower tree registry options).result = .ok body)
    {n : Nat} {t : Temp} {slot : Slot} {C : String}
    (hload : body.code[n]? = some (.define t (.loadSlot slot)))
    (hclass : (receiverClasses (upTo body n)).slots.lookup slot = some C) :
    ∃ k < n, ∃ value, body.code[k]? = some (.perform (.storeSlot slot value)) ∧
      (receiverClasses (upTo body k)).of? value = some C ∧
      (∀ j value', body.code[j]? = some (.perform (.storeSlot slot value')) → j = k) ∧
      (∀ passed, body.Path 0 n passed → k ∈ passed ∨ Body.JumpsOver (n :: passed) k) ∧
      ∀ info start passed, body.slot? slot = some info → info.isAnonymous = true →
        start = 0 ∨ body.ResumesAt start → body.Path start n passed → k ∈ passed := by
  obtain ⟨scope, entry, s, -, hbody, hcourse⟩ := exists_course h
  have hconsistent : body.Consistent := hbody ▸ hcourse.consistent f
  obtain ⟨k, hk, value, hstore, hsingle, hvalue⟩ := exists_store hclass
  have hunique : ∀ j value', body.code[j]? = some (.perform (.storeSlot slot value')) → j = k :=
    fun j value' hj => index_unique_of_count (f := Instr.slotAccess?) (a := (true, slot))
      ((hconsistent.single slot).1 hsingle).le hj hstore rfl rfl
  refine ⟨k, hk, value, hstore, hvalue, hunique, fun passed hpath => ?_, ?_⟩
  · exact hpath.passes_or_jumpsOver (Nat.zero_le k) hk
  · intro info start passed hinfo hanonymous hstart hpath
    obtain ⟨j, hj, value', hstore'⟩ := passes_store h hstart hpath hload hinfo hanonymous
    exact hunique j value' hstore' ▸ hj

/-- A function with one variable. -/
def ScopeTree.ofVariable (name : String) : ScopeTree where
  scopes := #[{ name := "m", kind := .global },
    { name := "m/f", kind := .function, ancestors := [⟨0⟩], bindings := [⟨0⟩] }]
  bindings := #[{ name, kind := .var, scope := ⟨1⟩ }]

/-- `class C { m() {} }`. -/
def oneClass : Registry :=
  .ofList [({ name := "C" } : ClassInfo).addMethod "m" 0 false]

/-- `if (p) var c = new C(); c.m();` -/
def branchedClass : Function where
  name := "f"
  kind := .function
  scope := ⟨1⟩
  body := [.branch (.intrinsic "p") (.declare .var [⟨.binding ⟨0⟩, some (.newClass "C" [])⟩]) none,
    .expr (.call (.member (.ident ⟨0⟩) "m" false) [] false)]

def branchedClassBody : Body :=
  match (branchedClass.lower (.ofVariable "c") oneClass {}).result with
  | .ok body => body
  | .error _ => default

theorem lower_branchedClass :
    (branchedClass.lower (.ofVariable "c") oneClass {}).result = .ok branchedClassBody := by
  decide +kernel

theorem lower_stores_class_branched : ∃ k < 6, ∃ value,
    branchedClassBody.code[k]? = some (.perform (.storeSlot ⟨0⟩ value)) ∧
      (receiverClasses (upTo branchedClassBody k)).of? value = some "C" := by
  obtain ⟨k, hk, value, hstore, hclass, -⟩ := Function.lower_stores_class lower_branchedClass
    (show branchedClassBody.code[6]? = some (.define ⟨3⟩ (.loadSlot ⟨0⟩)) by decide +kernel)
    (show (receiverClasses (upTo branchedClassBody 6)).slots.lookup ⟨0⟩ = some "C" by decide +kernel)
  exact ⟨k, hk, value, hstore, hclass⟩

/-- The call is bound to the method of `C`, although there is a way to the load that stores
nothing. -/
theorem Function.lower_infers_unset_class :
    (branchedClass.lower (.ofVariable "c") oneClass {}).result = .ok branchedClassBody ∧
    (receiverClasses branchedClassBody).of? ⟨3⟩ = some "C" ∧
    .define ⟨4⟩ (.callTyped false "C" "m" ⟨"C.m"⟩ ⟨3⟩ []) ∈
      (branchedClassBody.bindMemberCalls oneClass).1.code ∧
    branchedClassBody.code[6]? = some (.define ⟨3⟩ (.loadSlot ⟨0⟩)) ∧
    branchedClassBody.Path 0 6 [5, 2, 1, 0] ∧
    ∀ k ∈ [5, 2, 1, 0], (branchedClassBody.code[k]?.bind Instr.slotAccess?) = none := by
  refine ⟨lower_branchedClass, by decide +kernel, by decide +kernel, by decide +kernel, ?_,
    by decide +kernel⟩
  refine .step (.step (.step (.step .here (.next (i := .define ⟨0⟩ (.globalValue "p")) ?_ rfl))
    (.next (i := .define ⟨1⟩ (.coerce .truthiness ⟨0⟩)) ?_ rfl))
    (.jump (i := .branchIf false ⟨1⟩ ⟨0⟩) ?_ rfl
      (show branchedClassBody.code[5]? = some (.label ⟨0⟩) from ?_))) (.next (i := .label ⟨0⟩) ?_ rfl)
  all_goals decide +kernel

end ScriptLowering
