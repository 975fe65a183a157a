import ScriptLowering.Proofs.Descent
import ScriptLowering.Proofs.WellTyped

/-!
# Early binding

An unguarded call goes straight to a method, whatever the class of the receiver turns out to be when
the program runs. Two steps bind calls in this way: the lowering, where the receiver's class has no
subclasses, and the pass over the body, where all classes together declare one method that fits.
Both look for a method by its name and by the number of arguments, and what they find is right for
the receiver's class and for every class that descends from it: no class nearer in the lineage
declares such a method.

A look-up at run time goes by the name alone. The two agree where the classes of the lineage declare
the name with one number of parameters only. Otherwise they need not: a method of a subclass with
fewer parameters is overlooked.

## Main results

* `Registry.ofList_bindsNearest`: unguarded calls go to the nearest method of that name and number
  of parameters;
* `lower_overlooks_override`: and not always to the nearest method of that name.
-/

namespace ScriptLowering

variable {callable : Callable} {args : List Temp} {className name : String} {receiver result : Temp}

/-! ### Lineages -/

/-- An instance method of that name. -/
def MethodInfo.IsNamed (name : String) (m : MethodInfo) : Prop :=
  m.isStatic = false ∧ m.name = name

/-- An instance method of that name and number of parameters. -/
def MethodInfo.Fits (name : String) (arity : Nat) (m : MethodInfo) : Prop :=
  m.IsNamed name ∧ m.arity = arity

theorem MethodInfo.fits_iff {arity : Nat} {m : MethodInfo} :
    (!m.isStatic && m.name == name && m.arity == arity) = true ↔ m.Fits name arity := by
  simp [Fits, IsNamed]

namespace Registry

variable {r : Registry} {K C name : String} {arity : Nat} {c declaring : ClassInfo}
  {method : MethodInfo}

/-- Going up from the class, `declaring` is the first one to declare methods with the property, and
`method` is one of them. -/
def Nearest (r : Registry) (K : String) (P : MethodInfo → Prop) (declaring : ClassInfo)
    (method : MethodInfo) : Prop :=
  ∃ front rest, r.lineage K = front ++ declaring :: rest ∧ (∀ c ∈ front, ∀ m ∈ c.methods, ¬ P m) ∧
    method ∈ declaring.methods ∧ P method

/-- The bound method is right for instances of the class and of all classes that descend from it.
Where a lineage declares the name with this number of parameters only, a look-up by name finds the
same. -/
def Settles (r : Registry) (C name : String) (arity : Nat) (className : String)
    (callable : Callable) : Prop :=
  ∀ K, r.isSubclassOf K C = true → ∃ declaring method,
    declaring.name = className ∧ method.callable = callable ∧
    r.Nearest K (MethodInfo.Fits name arity) declaring method ∧
    ((∀ c ∈ r.lineage K, ∀ m ∈ c.methods, m.IsNamed name → m.arity = arity) →
      r.Nearest K (MethodInfo.IsNamed name) declaring method)

/-- The look-up by name and number of parameters finds the nearest method. -/
theorem nearest_of_instanceMethod? (h : r.instanceMethod? K name arity = some (declaring, method)) :
    r.Nearest K (MethodInfo.Fits name arity) declaring method := by
  obtain ⟨front, rest, hlineage, hfront, hm⟩ := instanceMethod?_eq_some_iff.1 h
  have hfits := List.find?_some hm
  refine ⟨front, rest, hlineage, fun c hc m hm hfits => ?_, List.mem_of_find?_eq_some hm,
    MethodInfo.fits_iff.1 hfits⟩
  have hnone := List.find?_eq_none.1 (hfront c hc) m hm
  exact hnone (MethodInfo.fits_iff.2 hfits)

/-- Where the number of parameters is always the same, it does not matter. -/
theorem Nearest.isNamed (h : r.Nearest K (MethodInfo.Fits name arity) declaring method)
    (hsame : ∀ c ∈ r.lineage K, ∀ m ∈ c.methods, m.IsNamed name → m.arity = arity) :
    r.Nearest K (MethodInfo.IsNamed name) declaring method := by
  obtain ⟨front, rest, hlineage, hfront, hmethod, hfits⟩ := h
  refine ⟨front, rest, hlineage, fun c hc m hm hnamed => hfront c hc m hm ⟨hnamed, ?_⟩, hmethod,
    hfits.1⟩
  exact hsame c (hlineage ▸ List.mem_append_left _ hc) m hm hnamed

theorem settles_of_instanceMethod? (h : ∀ K, r.isSubclassOf K C = true →
    r.instanceMethod? K name arity = some (declaring, method)) :
    r.Settles C name arity declaring.name method.callable := by
  intro K hK
  have hnearest := nearest_of_instanceMethod? (h K hK)
  exact ⟨declaring, method, rfl, rfl, hnearest, hnearest.isNamed⟩

/-! ### The method that all classes together declare -/

theorem mem_of_uniqueInstanceMethod? (h : r.uniqueInstanceMethod? name arity = some (declaring, method)) :
    declaring ∈ r.classes ∧ method ∈ declaring.methods ∧ method.Fits name arity ∧
      ∀ c ∈ r.classes, ∀ m ∈ c.methods, m.Fits name arity → c = declaring ∧ m = method := by
  unfold uniqueInstanceMethod? at h
  split at h
  · rename_i found hfound
    obtain rfl := Option.some.inj h
    have hmem : ∀ {c m}, (c, m) ∈ r.instanceMethods name arity ↔
        c ∈ r.classes ∧ m ∈ c.methods ∧ m.Fits name arity := by
      intro c m
      simp [instanceMethods, MethodInfo.Fits, MethodInfo.IsNamed, and_assoc]
    have hself := hmem.1 (hfound ▸ List.mem_singleton_self _)
    refine ⟨hself.1, hself.2.1, hself.2.2, fun c hc m hm hfits => ?_⟩
    have hcm := hmem.2 ⟨hc, hm, hfits⟩
    rw [hfound] at hcm
    exact Prod.mk.inj (List.mem_singleton.1 hcm)
  · cases h

/-- A method that all classes together declare once is what all descendants of its class have. -/
theorem instanceMethod?_of_unique (hnames : (r.classes.map ClassInfo.name).Nodup)
    (h : r.uniqueInstanceMethod? name arity = some (declaring, method))
    (hK : r.isSubclassOf K declaring.name) :
    r.instanceMethod? K name arity = some (declaring, method) := by
  obtain ⟨hdeclaring, hmethod, hfits, hunique⟩ := mem_of_uniqueInstanceMethod? h
  obtain ⟨c, hc, hname⟩ := List.any_eq_true.1 hK
  obtain rfl : c = declaring := by
    have hclass := (mem_descent hc).1
    rw [beq_iff_eq.1 hname, class?_of_mem hnames hdeclaring] at hclass
    exact (Option.some.inj hclass).symm
  have hsome : (r.instanceMethod? K name arity).isSome = true := by
    refine List.findSome?_isSome_iff.2 ⟨c, hc, ?_⟩
    rw [Option.isSome_map, ClassInfo.instanceMethod?, List.find?_isSome]
    exact ⟨method, hmethod, MethodInfo.fits_iff.2 hfits⟩
  obtain ⟨⟨c', m⟩, hfound⟩ := Option.isSome_iff_exists.1 hsome
  obtain ⟨front, rest, hlineage, -, hm, hfits'⟩ := nearest_of_instanceMethod? hfound
  have hc' : c' ∈ r.lineage K := hlineage ▸ List.mem_append_right front (.head rest)
  obtain ⟨rfl, rfl⟩ := hunique c' (name_of_class? (mem_descent hc').1).2 m hm hfits'
  exact hfound

end Registry

/-! ### Calls bound while lowering -/

/-- The call is bound to what the receiver's class has, and the class has no subclasses. -/
def Instr.Committed (w : Setting) (s : Session) : Instr → Prop
  | .define _ (.callTyped guarded className name callable receiver args) =>
    guarded = false ∧ ∃ declaring method, s.Holds w (.bound receiver name args.length declaring method) ∧
      className = declaring.name ∧ callable = method.callable
  | _ => True

namespace Session

variable {w : Setting} {s s' : Session}
variable {i : Instr}

theorem Extends.committed {n : Nat} (h : s.Extends n s') (hi : i.Committed w s) :
    i.Committed w s' := by
  unfold Instr.Committed at hi ⊢
  split at hi
  · obtain ⟨hguarded, declaring, method, hbound, hnames⟩ := hi
    exact ⟨hguarded, declaring, method, h.holds hbound (.inl rfl), hnames⟩
  · trivial

theorem committed_of_founded (h : i.Founded w s) : i.Committed w s := by
  unfold Instr.Committed
  split
  · exact h
  · trivial

theorem Step.committed (hs : s.Sound w) (h : ∀ i ∈ s.code, i.Committed w s) (hstep : Step w s s') :
    ∀ i ∈ s'.code, i.Committed w s' := by
  have hext := hstep.extends hs
  exact hstep.forall_code (fun i hi => hext.committed (h i hi))
    (fun i hi => hext.committed (committed_of_founded hi)) (fun _ _ => trivial)
    (fun _ _ _ _ _ _ _ => trivial) fun _ => trivial

end Session

/-- A call that the lowering binds is right for all classes that the receiver may have. -/
theorem Course.settles {w : Setting} {entry s : Session} (h : Course w entry s) {guarded : Bool}
    (hi : .define result (.callTyped guarded className name callable receiver args) ∈ s.code) :
    guarded = false ∧ ∃ C, (s.layout.temp receiver).bind Storage.className? = some C ∧
      w.registry.Settles C name args.length className callable := by
  have hcommitted := h.invariant (P := fun s => ∀ i ∈ s.code, i.Committed w s) (by simp)
    fun hs hcode hstep => hstep.committed hs hcode
  obtain ⟨hguarded, declaring, method, ⟨C, hclass, hleaf, hmethod⟩, rfl, rfl⟩ := hcommitted _ hi
  refine ⟨hguarded, C, hclass, Registry.settles_of_instanceMethod? fun K hK => ?_⟩
  rw [Registry.eq_of_isSubclassOf hleaf hK]
  exact hmethod

/-! ### Calls bound by the pass -/

/-- A call that the pass binds without a guard is right for all classes that the receiver may
have. -/
theorem MemberBinding.Facts.Binds.settles {facts : Facts}
    (hnames : (facts.registry.classes.map ClassInfo.name).Nodup)
    {result' receiver' : Temp} {name' : String} {args' : List Temp}
    (h : facts.Binds result' receiver' name' args'
      (.define result (.callTyped false className name callable receiver args))) :
    ∃ C, facts.classes.of? receiver = some C ∧
      facts.registry.Settles C name args.length className callable := by
  obtain ⟨C, declaring, method, hclass, hunique, -, heq⟩ := h
  simp only [Instr.define.injEq, Operation.callTyped.injEq] at heq
  obtain ⟨rfl, hexact, rfl, rfl, rfl, rfl, rfl⟩ := heq
  obtain rfl : declaring.name = C := by simpa using hexact.symm
  exact ⟨_, hclass, Registry.settles_of_instanceMethod? fun K hK =>
    Registry.instanceMethod?_of_unique hnames hunique hK⟩

/-- Unguarded calls go to the right method. Say that the lowering emits one, or the pass that binds
member calls does, for a receiver of the static class `C`. Then for `C` and for every class that
descends from it, the nearest class in the lineage that declares an instance method of that name
with as many parameters as the call has arguments is the class of the call, and its method is the
one that is called. -/
theorem Registry.ofList_bindsNearest (classes : List ClassInfo) {f : Function} {tree : ScopeTree}
    {options : Options} {body : Body} (h : (f.lower tree (.ofList classes) options).result = .ok body)
    (b : Body) {result receiver : Temp} {className name : String} {callable : Callable}
    {args : List Temp} :
    (.define result (.callTyped false className name callable receiver args) ∈ body.code →
      ∃ C, (body.storageOf receiver).className? = some C ∧
        (Registry.ofList classes).Settles C name args.length className callable) ∧
    (.define result (.callTyped false className name callable receiver args) ∈
        (b.bindMemberCalls (.ofList classes)).1.code →
      .define result (.callTyped false className name callable receiver args) ∈ b.code ∨
      ∃ C, (MemberBinding.receiverClasses b).of? receiver = some C ∧
        (Registry.ofList classes).Settles C name args.length className callable) := by
  refine ⟨fun hcall => ?_, fun hcall => ?_⟩
  · obtain ⟨scope, entry, s, -, rfl, hcourse⟩ := Function.exists_course h
    rcases Session.mem_toBody hcall with hcall | ⟨targets, start, hdispatch⟩
    · obtain ⟨-, C, hclass, hsettles⟩ := hcourse.settles hcall
      obtain ⟨storage, hstorage, hclass⟩ := Option.bind_eq_some_iff.1 hclass
      rw [← Session.layout_toBody f] at hstorage
      exact ⟨C, Body.storageOf_of_layout hstorage ▸ hclass, hsettles⟩
    · cases hdispatch
  · rw [← MemberBinding.behind_revision] at hcall
    obtain ⟨⟨i, o⟩, hmem, rfl⟩ := List.mem_filterMap.1 hcall
    cases MemberBinding.edit_of_mem hmem with
    | keep => exact .inl (MemberBinding.before_revision b _ ▸ Revision.mem_before hmem)
    | fixed hbind | packed _ hbind => exact .inr (hbind.settles (nodup_ofList classes))

/-! ### A method that is overlooked -/

/-- `class P { m(a, b) {} }` and `class C extends P { m(a) {} }`. -/
def shadowing : List ClassInfo :=
  [({ name := "P" } : ClassInfo).addMethod "m" 2 false,
    ({ name := "C", parent := some "P" } : ClassInfo).addMethod "m" 1 false]

/-- `return this.m(1, 2);` in a method of `C`. -/
def callsShadowed : Function where
  name := "run"
  kind := .method
  scope := ScopeTree.global
  body := [.ret (some (.call (.member .this "m" false)
    [.plain (.number (.ofNat 1)), .plain (.number (.ofNat 2))] false))]
  owner := some ⟨"C", some "P"⟩

/-- The body of the method. -/
def shadowedBody : Body :=
  match (callsShadowed.lower (.ofModule "m") (.ofList shadowing) {}).result with
  | .ok body => body
  | .error _ => default

/-- A call that is left to the pass, on an instance of `P`. -/
def unboundCall : Body where
  name := "unboundCall"
  code := [.define ⟨5⟩ (.callMemberFixed ⟨0⟩ "m" [⟨2⟩, ⟨4⟩])]
  temps := #[some (.reference (.userClass "P")), none, some .object, none, some .object, some .object]

theorem ofList_bindsNearest_shadowing :
    (∃ C, (shadowedBody.storageOf ⟨0⟩).className? = some C ∧
      (Registry.ofList shadowing).Settles C "m" 2 "P" ⟨"P.m"⟩) ∧
    ∃ C, (MemberBinding.receiverClasses unboundCall).of? ⟨0⟩ = some C ∧
      (Registry.ofList shadowing).Settles C "m" 2 "P" ⟨"P.m"⟩ := by
  have h : (callsShadowed.lower (.ofModule "m") (.ofList shadowing) {}).result = .ok shadowedBody := by
    decide +kernel
  have hlowered : .define ⟨5⟩ (.callTyped false "P" "m" ⟨"P.m"⟩ ⟨0⟩ [⟨2⟩, ⟨4⟩]) ∈ shadowedBody.code := by
    decide +kernel
  have hbound : .define ⟨5⟩ (.callTyped false "P" "m" ⟨"P.m"⟩ ⟨0⟩ [⟨2⟩, ⟨4⟩]) ∈
      (unboundCall.bindMemberCalls (.ofList shadowing)).1.code := by
    decide +kernel
  obtain ⟨hfirst, hsecond⟩ := Registry.ofList_bindsNearest shadowing h unboundCall
  exact ⟨hfirst hlowered, (hsecond hbound).resolve_left (by decide)⟩

/-- The call in the method of `C` goes to the method of `P`, although `C` declares one of that
name. -/
theorem lower_overlooks_override :
    (callsShadowed.lower (.ofModule "m") (.ofList shadowing) {}).result = .ok shadowedBody ∧
    .define ⟨5⟩ (.callTyped false "P" "m" ⟨"P.m"⟩ ⟨0⟩ [⟨2⟩, ⟨4⟩]) ∈ shadowedBody.code ∧
    (shadowedBody.storageOf ⟨0⟩).className? = some "C" ∧
    (Registry.ofList shadowing).isSubclassOf "C" "C" = true ∧
    ¬ ∃ declaring method, declaring.name = "P" ∧
      (Registry.ofList shadowing).Nearest "C" (MethodInfo.IsNamed "m") declaring method := by
  refine ⟨by decide +kernel, by decide +kernel, by decide +kernel, by decide +kernel, ?_⟩
  rintro ⟨declaring, method, hname, front, rest, hlineage, hfront, -, -⟩
  have hclasses : ∃ c p, (Registry.ofList shadowing).lineage "C" = [c, p] ∧ c.name = "C" ∧
      c.methods = [⟨"m", 1, false, false, ⟨"C.m"⟩⟩] := ⟨_, _, rfl, rfl, by decide +kernel⟩
  obtain ⟨c, p, hpair, hc, hmethods⟩ := hclasses
  rw [hpair] at hlineage
  cases front with
  | nil =>
    obtain rfl : c = declaring := (List.cons.inj hlineage).1
    exact absurd (hc.symm.trans hname) (by decide)
  | cons c' front =>
    obtain rfl : c = c' := (List.cons.inj hlineage).1
    exact hfront c (.head _) ⟨"m", 1, false, false, ⟨"C.m"⟩⟩ (by simp [hmethods]) ⟨rfl, rfl⟩

end ScriptLowering
