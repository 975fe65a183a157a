import ScriptLowering.Proofs.Course.Lowered

/-!
# Where a derived constructor uses `this`

A derived constructor has to call the constructor of its parent before it uses `this`. The lowering
keeps one flag for that. The flag is set at the first `super(…)` in the order of the source,
whatever is executed: behind it `this` is loaded as it is, and in front of it a use of `this`
throws. So the guard is missing on a way that jumps over the call, and it is too strict on a way
that jumps back in front of the call. On all other ways it is right.

## Main results

* `Function.lower_guards_this`: what guards `this`, along the ways that control can take;
* `Function.lower_leaves_this_unguarded`: a way over the call.
-/

namespace ScriptLowering

/-! ### The order of the code -/

namespace Instr

/-- The instruction may stand where the constructor of the parent has been called, in the order of
the code, or where it has not. -/
def RespectsSuper (called : Bool) : Instr → Prop
  | .define _ .loadThis => called = true
  | .define _ (.newError .referenceError _) => called = false
  | _ => True

theorem callsSuper_plain (i : Instr) : i.plain.callsSuper = i.callsSuper := by
  unfold plain unfused
  split
  · rfl
  · split <;> rfl

theorem respectsSuper_plain {i : Instr} {called : Bool} :
    i.plain.RespectsSuper called ↔ i.RespectsSuper called := by
  unfold plain unfused
  split
  · rfl
  · split <;> rfl

end Instr

/-- Every instruction respects what is called in front of it. -/
def RespectsSuper (code : List Instr) : Prop :=
  ∀ (k : Nat) (i : Instr), code[k]? = some i → i.RespectsSuper ((code.take k).any Instr.callsSuper)

variable {code code' : List Instr} {i : Instr}

theorem any_callsSuper_congr (h : code'.map Instr.plain = code.map Instr.plain) :
    code'.any Instr.callsSuper = code.any Instr.callsSuper := by
  have hplain : ∀ l : List Instr, l.any Instr.callsSuper = (l.map Instr.plain).any Instr.callsSuper :=
    fun l => by simp [Function.comp_def, Instr.callsSuper_plain]
  rw [hplain, h, ← hplain]

theorem RespectsSuper.congr (hcode : RespectsSuper code)
    (h : code'.map Instr.plain = code.map Instr.plain) : RespectsSuper code' := by
  intro k i hi
  have hk : (code'.take k).map Instr.plain = (code.take k).map Instr.plain := by
    rw [List.map_take, h, ← List.map_take]
  have hplain : (code.map Instr.plain)[k]? = some i.plain := by rw [← h, List.getElem?_map, hi]; rfl
  obtain ⟨j, hj, hsame⟩ := Option.map_eq_some_iff.1 (List.getElem?_map.symm.trans hplain)
  rw [any_callsSuper_congr hk, ← Instr.respectsSuper_plain, ← hsame, Instr.respectsSuper_plain]
  exact hcode k j hj

theorem RespectsSuper.snoc (hcode : RespectsSuper code)
    (hi : i.RespectsSuper (code.any Instr.callsSuper)) : RespectsSuper (code ++ [i]) := by
  intro k j hj
  rcases Nat.lt_or_ge k code.length with hk | hk
  · rw [List.getElem?_append_left hk] at hj
    rw [List.take_append_of_le_length hk.le]
    exact hcode k j hj
  · obtain rfl : k = code.length := by
      have hlt := (List.getElem?_eq_some_iff.1 hj).1
      simp only [List.length_append, List.length_singleton] at hlt
      omega
    obtain rfl : i = j := by simpa using hj
    simpa using hi

namespace Session

variable {w : Setting} {s s' : Session}

/-- The flag tells whether the constructor of the parent is called somewhere in the code, and all
instructions stand where they may. -/
structure KeepsSuper (s : Session) : Prop where
  flag : s.superCalled = s.code.toList.any Instr.callsSuper
  code : RespectsSuper s.code.toList

theorem KeepsSuper.push (h : s.KeepsSuper) (hcode : s'.code = s.code.push i)
    (hflag : s'.superCalled = (i.callsSuper || s.superCalled)) (hi : i.RespectsSuper s.superCalled) :
    s'.KeepsSuper where
  flag := by simp [hflag, hcode, h.flag, Bool.or_comm]
  code := by
    rw [hcode, Array.toList_push]
    exact h.code.snoc (h.flag ▸ hi)

theorem KeepsSuper.congr (h : s.KeepsSuper) (hflag : s'.superCalled = s.superCalled)
    (hcode : s'.code.toList.map Instr.plain = s.code.toList.map Instr.plain) : s'.KeepsSuper :=
  ⟨by rw [hflag, h.flag, any_callsSuper_congr hcode], h.code.congr hcode⟩

theorem respectsSuper_of_founded (hderived : w.function.isDerivedConstructor = true)
    (h : i.Founded w s) : i.RespectsSuper s.superCalled := by
  unfold Instr.RespectsSuper
  split
  · exact h hderived
  · exact h
  · trivial

/-- Steps of a derived constructor keep to the order. -/
theorem Step.keepsSuper (hderived : w.function.isDerivedConstructor = true) (h : s.KeepsSuper)
    (hstep : Step w s s') : s'.KeepsSuper := by
  cases hstep with
  | aside hsame => exact h.congr hsame.superCalled (by rw [hsame.code])
  | emit hi => exact h.push rfl rfl (respectsSuper_of_founded hderived hi.founded)
  | fuse hadded =>
    obtain ⟨front, hcode, hfused⟩ := exists_front_of_fuse hadded
    exact h.congr rfl (by simp [hcode, hfused, Instr.plain, Instr.unfused])
  | store => exact h.push rfl rfl trivial
  | @suspend kind value result label reject =>
    have hfirst : KeepsSuper { s with
        code := s.code.push (.suspend kind value (s.resumePoints.size + 1) label result reject) } :=
      h.push rfl rfl trivial
    exact hfirst.push rfl rfl trivial
  | @enter start hres hcode => exact h.push (i := .dispatch [] start) (by simp [hcode]) rfl trivial
  | _ => exact ⟨h.flag, h.code⟩

end Session

/-! ### Lowered bodies -/

namespace Function

variable {f : Function} {tree : ScopeTree} {registry : Registry} {options : Options} {body : Body}

theorem respectsSuper_lower (h : (f.lower tree registry options).result = .ok body)
    (hderived : f.isDerivedConstructor = true) : RespectsSuper body.code := by
  obtain ⟨scope, entry, s, -, rfl, hcourse⟩ := exists_course h
  have hsuper : s.KeepsSuper := hcourse.invariant ⟨rfl, by simp [RespectsSuper]⟩
    fun _ hsuper hstep => hstep.keepsSuper hderived hsuper
  exact hsuper.code.congr (s.map_plain_toBody f)

/-- In a derived constructor, every way from the entry to a load of `this` passes a call of the
parent's constructor or jumps over one, and a way from such a call to the error for an early use of
`this` jumps back in front of the call. -/
theorem lower_guards_this (h : (f.lower tree registry options).result = .ok body)
    (hderived : f.isDerivedConstructor = true) :
    (∀ {n t passed}, body.Path 0 n passed → body.code[n]? = some (.define t .loadThis) →
      ∃ k parent args, body.code[k]? = some (.perform (.callSuper parent args)) ∧
        (k ∈ passed ∨ Body.JumpsOver (n :: passed) k)) ∧
    ∀ {k n parent args t message passed}, body.code[k]? = some (.perform (.callSuper parent args)) →
      body.Path k n passed → body.code[n]? = some (.define t (.newError .referenceError message)) →
        Body.JumpsBack (n :: passed) k := by
  have hcode := respectsSuper_lower h hderived
  constructor
  · intro n t passed hpath hload
    obtain ⟨i, hi, hcalls⟩ := List.any_eq_true.1 (hcode n _ hload)
    obtain ⟨k, hk⟩ := List.getElem?_of_mem hi
    rw [List.getElem?_take] at hk
    split at hk
    · rename_i hlt
      unfold Instr.callsSuper at hcalls
      split at hcalls
      · exact ⟨k, _, _, hk, hpath.passes_or_jumpsOver (Nat.zero_le k) hlt⟩
      · cases hcalls
    · cases hk
  · intro k n parent args t message passed hcall hpath herror
    have hnone : ((body.code.take n).any Instr.callsSuper) = false := hcode n _ herror
    refine hpath.jumpsBack le_rfl (Nat.lt_of_not_le fun hle => ?_)
    have hne : k ≠ n := by
      rintro rfl
      cases hcall.symm.trans herror
    have hmem : Instr.perform (.callSuper parent args) ∈ body.code.take n := by
      refine List.mem_of_getElem? (i := k) ?_
      rw [List.getElem?_take_of_lt (by omega)]
      exact hcall
    exact absurd rfl (List.any_eq_false.1 hnone _ hmem)

end Function

/-- `if (p) super(); return this;` in the constructor of a class that extends another one. -/
def branchedSuper : Function where
  name := "C"
  kind := .constructor
  scope := ScopeTree.global
  body := [.branch (.intrinsic "p") (.expr (.superCall [])) none, .ret (some .this)]
  owner := some ⟨"C", some "B"⟩

theorem lower_branchedSuper :
    (branchedSuper.lower (.ofModule "m") {} {}).result = .ok branchedSuper.loweredAlone := by
  decide +kernel

/-- The way along which there is no call. -/
theorem branchedSuper_path : branchedSuper.loweredAlone.Path 0 6 [5, 2, 1, 0] := by
  refine .step (.step (.step (.step .here (.next (i := .define ⟨0⟩ (.globalValue "p")) ?_ rfl))
    (.next (i := .define ⟨1⟩ (.coerce .truthiness ⟨0⟩)) ?_ rfl))
    (.jump (i := .branchIf false ⟨1⟩ ⟨0⟩) ?_ rfl
      (show branchedSuper.loweredAlone.code[5]? = some (.label ⟨0⟩) from ?_)))
    (.next (i := .label ⟨0⟩) ?_ rfl)
  all_goals decide +kernel

theorem lower_guards_this_branchedSuper :
    ∃ k parent args, branchedSuper.loweredAlone.code[k]? = some
      (.perform (.callSuper parent args)) ∧ (k ∈ [5, 2, 1, 0] ∨ Body.JumpsOver [6, 5, 2, 1, 0] k) :=
  (Function.lower_guards_this lower_branchedSuper (by decide)).1 branchedSuper_path
    (show _ = some (Instr.define ⟨3⟩ .loadThis) by decide +kernel)

/-- Where the call is in a branch, `this` is loaded on a way without a call. -/
theorem Function.lower_leaves_this_unguarded : branchedSuper.isDerivedConstructor = true ∧
    (branchedSuper.lower (.ofModule "m") {} {}).result = .ok branchedSuper.loweredAlone ∧
    branchedSuper.loweredAlone.Path 0 6 [5, 2, 1, 0] ∧
    branchedSuper.loweredAlone.code[6]? = some (.define ⟨3⟩ .loadThis) ∧
    ∀ k ∈ [6, 5, 2, 1, 0], branchedSuper.loweredAlone.code[k]?.any Instr.callsSuper = false :=
  ⟨by decide, lower_branchedSuper, branchedSuper_path, by decide +kernel, by decide +kernel⟩

end ScriptLowering
