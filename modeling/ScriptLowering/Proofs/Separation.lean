import ScriptLowering.Proofs.Course.Lowered

/-!
# Variables and state fields do not share fields

A resumable function keeps its variables and the state of its execution in fields of one object, and
all of them are told apart by their names. A variable of a block has its number in the name of its
field, which keeps it apart from every other variable of a block and from every state field. A
variable of the function's own scope gives its plain name to its field, and there is nothing to stop
a program from choosing a name that the lowering makes up itself. Apart from such variables no two
fields are one.

## Main results

* `Session.Step.separates`: what every step of a lowering keeps true of names;
* `Function.lower_separatesFields`: fields of variables are apart from each other and from state
  fields;
* `Function.lower_sharesStarted`: the exception.
-/

namespace ScriptLowering

/-- The bindings that are declared in one scope have different names. -/
def ScopeTree.DeclaresApart (tree : ScopeTree) : Prop :=
  tree.bindings.toList.Pairwise fun b b' => b.scope = b'.scope → b.name ≠ b'.name

instance (tree : ScopeTree) : Decidable tree.DeclaresApart :=
  inferInstanceAs (Decidable (List.Pairwise _ _))

/-- The binding is declared in the function's own scope, with a name that the lowering may give to a
field by itself. -/
def Function.Exposes (f : Function) (tree : ScopeTree) (id : BindingId) : Prop :=
  ∃ b, tree.binding? id = some b ∧ b.scope = f.scope ∧ GeneratedName b.name

/-- The session with which the lowering of a function ends, if it succeeds. -/
def Function.finalSession? (f : Function) (tree : ScopeTree) (registry : Registry)
    (options : Options) : Option Session :=
  (Context.ofFunction? tree registry options f).bind fun ctx =>
    match Lower.wholeFunction ctx {} with
    | .ok _ s => some s
    | .error _ _ => none

/-! ### Fields of bindings -/

theorem ScopeTree.DeclaresApart.eq_of_name {tree : ScopeTree} {id id' : BindingId} {b b' : Binding}
    (h : tree.DeclaresApart) (hb : tree.binding? id = some b) (hb' : tree.binding? id' = some b')
    (hscope : b.scope = b'.scope) (hname : b.name = b'.name) : id = id' := by
  have hpairwise := List.pairwise_iff_getElem.1 h
  obtain ⟨hlt, rfl⟩ := Array.getElem?_eq_some_iff.1 hb
  obtain ⟨hlt', rfl⟩ := Array.getElem?_eq_some_iff.1 hb'
  obtain ⟨k⟩ := id
  obtain ⟨k'⟩ := id'
  rcases Nat.lt_trichotomy k k' with hk | rfl | hk
  · exact absurd hname (hpairwise k k' hlt hlt' hk hscope)
  · rfl
  · exact absurd hname.symm (hpairwise k' k hlt' hlt hk hscope.symm)

namespace Setting

variable {w : Setting} {id id' : BindingId} {field : FieldRef}

/-- A binding whose field has a name as the lowering gives it to state fields is exposed. -/
theorem FieldOf.exposes (h : w.FieldOf id field) (hname : StateName field.name) : w.function.Exposes w.tree id := by
  obtain ⟨b, hb, -, rfl⟩ := h
  by_cases hscope : b.scope = w.function.scope
  · rw [if_pos hscope] at hname
    exact ⟨b, hb, hscope, .state hname⟩
  · rw [if_neg hscope] at hname
    exact absurd rfl hname.ne_numbered

/-- Two bindings with the same field are one, or one of them is exposed. -/
theorem FieldOf.unique (hnames : w.tree.DeclaresApart) (h : w.FieldOf id field)
    (h' : w.FieldOf id' field) : id = id' ∨ w.function.Exposes w.tree id ∨ w.function.Exposes w.tree id' := by
  obtain ⟨b, hb, -, rfl⟩ := h
  obtain ⟨b', hb', -, heq⟩ := h'
  have heq := congrArg FieldRef.name heq
  by_cases hscope : b.scope = w.function.scope <;> by_cases hscope' : b'.scope = w.function.scope <;>
    simp only [hscope, hscope', if_true, if_false] at heq
  · exact .inl (hnames.eq_of_name hb hb' (hscope.trans hscope'.symm) heq)
  · exact .inr (.inl ⟨b, hb, hscope, heq ▸ .numbered _ _⟩)
  · exact .inr (.inr ⟨b', hb', hscope', heq ▸ .numbered _ _⟩)
  · have hindex := numbered_injective heq
    cases id
    cases id'
    exact .inl (congrArg BindingId.mk hindex)

end Setting

/-! ### Sessions -/

namespace Session

variable {w : Setting} {s s' : Session}

/-- State fields have made-up names, and bindings live in fields that are named after them. -/
structure Separates (w : Setting) (s : Session) : Prop where
  names : ∀ name ∈ s.stateFields, StateName name
  homes : ∀ id field, (id, .leafField field) ∈ s.placements → w.FieldOf id field

theorem separates_empty (w : Setting) : ({} : Session).Separates w :=
  ⟨by simp, by simp⟩

theorem Separates.of_same (h : s.Separates w) (hfields : s'.stateFields = s.stateFields)
    (hplacements : s'.placements = s.placements) : s'.Separates w :=
  ⟨hfields ▸ h.names, hplacements ▸ h.homes⟩

theorem Step.separates (h : s.Separates w) (hstep : Step w s s') : s'.Separates w := by
  cases hstep with
  | aside hsame => exact h.of_same hsame.fields hsame.placements
  | @stateField name _ _ hname =>
    refine ⟨fun other hother => ?_, h.homes⟩
    rcases Array.mem_push.1 hother with hother | rfl
    · exact h.names other hother
    · exact hname
  | freshSlot =>
    refine ⟨h.names, fun id' field hmem => ?_⟩
    rcases List.mem_append.1 hmem with hmem | hmem
    · obtain ⟨id, -, heq⟩ := Option.map_eq_some_iff.1 (Option.mem_toList.1 hmem)
      cases heq
    · exact h.homes id' field hmem
  | @home id home _ hid =>
    refine ⟨h.names, fun id' field hmem => ?_⟩
    rcases List.mem_cons.1 hmem with heq | hmem
    · cases heq
      exact hid field rfl
    · exact h.homes id' field hmem
  | _ => exact h.of_same rfl rfl

end Session

theorem Course.separates {w : Setting} {entry s : Session} (h : Course w entry s) : s.Separates w :=
  h.invariant (Session.separates_empty w) fun _ hs hstep => hstep.separates hs

/-- A function that lowers ends with a session in which variables and state fields are apart: two
bindings that live in the same field of the function's own capture object are one, and no binding
lives in a state field. Exempt are bindings of the function's own scope with a name that the
lowering may give to a field by itself. -/
theorem Function.lower_separatesFields {f : Function} {tree : ScopeTree} {registry : Registry}
    {options : Options} {body : Body} (h : (f.lower tree registry options).result = .ok body)
    (hnames : tree.DeclaresApart) :
    ∃ s, f.finalSession? tree registry options = some s ∧ body = s.toBody f ∧
      (∀ id id' field, (id, .leafField field) ∈ s.placements → (id', .leafField field) ∈ s.placements →
        ¬ f.Exposes tree id → ¬ f.Exposes tree id' → id = id') ∧
      ∀ id field, (id, .leafField field) ∈ s.placements → ¬ f.Exposes tree id →
        field.name ∉ body.stateFields := by
  obtain ⟨ctx, s, u, hctx, -, hrun, rfl⟩ := exists_session h
  obtain ⟨scope, entry, -, hcourse⟩ := Course.of_run hctx hrun
  have hseparates := hcourse.separates
  refine ⟨s, by rw [finalSession?, hctx, Option.bind_some, hrun], rfl, fun id id' field hid hid' hfree hfree' => ?_, fun id field hid hfree hmem => ?_⟩
  · rcases (hseparates.homes id field hid).unique hnames (hseparates.homes id' field hid') with
      heq | hexposed | hexposed
    · exact heq
    · exact absurd hexposed hfree
    · exact absurd hexposed hfree'
  · have hname := hseparates.names field.name (Array.mem_toList_iff.1 hmem)
    exact hfree ((hseparates.homes id field hid).exposes hname)

/-- A function with a block, with one variable in each of them. -/
def ScopeTree.ofBlock (own inner : String) : ScopeTree where
  scopes := #[{ name := "m", kind := .global },
    { name := "m/f", kind := .function, ancestors := [⟨0⟩], bindings := [⟨0⟩] },
    { name := "m/f/b", kind := .block, ancestors := [⟨1⟩, ⟨0⟩], bindings := [⟨1⟩] }]
  bindings := #[{ name := own, kind := .lexical, scope := ⟨1⟩ },
    { name := inner, kind := .lexical, scope := ⟨2⟩ }]

/-- `let own = 1; { let inner = 2; await inner; }` in an async function. -/
def awaitInBlock : Function where
  name := "f"
  kind := .function
  scope := ⟨1⟩
  body := [.declare .lexical [⟨.binding ⟨0⟩, some (.number (.ofNat 1))⟩],
    .block (some ⟨2⟩) [.declare .lexical [⟨.binding ⟨1⟩, some (.number (.ofNat 2))⟩],
      .expr (.await (.ident ⟨1⟩))]]
  isAsync := true

/-- Variables of the same name, of which one shadows the other. -/
theorem lower_separatesFields_shadowing :
    ∃ body s, (awaitInBlock.lower (.ofBlock "x" "x") {} {}).result = .ok body ∧
      awaitInBlock.finalSession? (.ofBlock "x" "x") {} {} = some s ∧
      (⟨0⟩, .leafField ⟨"m/f", "x"⟩) ∈ s.placements ∧
      (⟨1⟩, .leafField ⟨"m/f", "x$1"⟩) ∈ s.placements ∧
      "x" ∉ body.stateFields ∧ "x$1" ∉ body.stateFields := by
  have hnames : (ScopeTree.ofBlock "x" "x").DeclaresApart := by decide
  have hhomes : ∀ s ∈ awaitInBlock.finalSession? (.ofBlock "x" "x") {} {},
      (⟨0⟩, .leafField ⟨"m/f", "x"⟩) ∈ s.placements ∧
        (⟨1⟩, .leafField ⟨"m/f", "x$1"⟩) ∈ s.placements := by decide +kernel
  have hfree : ∀ id, ¬ awaitInBlock.Exposes (.ofBlock "x" "x") id := by
    rintro id ⟨b, hb, -, hname⟩
    have hplain : b.name = "x" :=
      (by decide : ∀ b ∈ (ScopeTree.ofBlock "x" "x").bindings, b.name = "x") b
        (Array.mem_of_getElem? hb)
    rw [hplain] at hname
    exact absurd hname.mem (by decide)
  have hlowers : (awaitInBlock.lower (.ofBlock "x" "x") {} {}).result.isOk = true := by decide +kernel
  cases hresult : (awaitInBlock.lower (.ofBlock "x" "x") {} {}).result with
  | error halt =>
    rw [hresult] at hlowers
    cases hlowers
  | ok body =>
    obtain ⟨s, hs, -, -, hapart⟩ := Function.lower_separatesFields hresult hnames
    obtain ⟨hown, hinner⟩ := hhomes s hs
    exact ⟨body, s, rfl, hs, hown, hinner, hapart _ _ hown (hfree _), hapart _ _ hinner (hfree _)⟩

/-- A variable that is named like a state field shares its field. -/
theorem Function.lower_sharesStarted :
    (ScopeTree.ofBlock "_started" "x").DeclaresApart ∧
      ∃ s, awaitInBlock.finalSession? (.ofBlock "_started" "x") {} {} = some s ∧
        (⟨0⟩, .leafField ⟨"m/f", "_started"⟩) ∈ s.placements ∧
          "_started" ∈ (s.toBody awaitInBlock).stateFields := by
  have hshared : ∀ s ∈ awaitInBlock.finalSession? (.ofBlock "_started" "x") {} {},
      (⟨0⟩, .leafField ⟨"m/f", "_started"⟩) ∈ s.placements ∧
        "_started" ∈ (s.toBody awaitInBlock).stateFields := by decide +kernel
  obtain ⟨s, hs⟩ : ∃ s, awaitInBlock.finalSession? (.ofBlock "_started" "x") {} {} = some s :=
    Option.isSome_iff_exists.1 (by decide +kernel)
  exact ⟨by decide, s, hs, hshared s hs⟩

end ScriptLowering
