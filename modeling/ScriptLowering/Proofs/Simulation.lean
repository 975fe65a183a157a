import ScriptLowering.Proofs.Operand
import ScriptLowering.Proofs.Resolution

/-!
# Two lowerings side by side

The lowering of a source is run twice, and the two runs are compared step by step. They may name
their temps differently, and they may differ in whatever else a `Simulation` allows. A simulation
relates worlds, sessions and temps: a step starts in related sessions, and either it succeeds on
both sides, in related sessions of a world that the first world leads to, or it halts on both sides
for the same reason. A property of single runs is the case in which both runs are the same.

`Simulation.Lawful` lists what has to be checked for a simulation: one law for each step that
touches the code, the temps, the regions or the resume points by itself. All other steps of the
lowering are put together from these, and they follow every lawful simulation.

The judgement is `Φ.Relates D m m'`: if the temps that `D` pairs are related, the two computations
do related things. What corresponds to each other among their results is said once for each type of
results, by `Linkable`.
-/

namespace ScriptLowering

variable {D : Pairing}

/-! ### Values on both sides -/

/-- A pairing of the temps of two runs. -/
abbrev Pairing := List (Temp × Temp)

/-- Values of this type may hold temps. `Linked D a a'` says that the two values are the same but
for temps that `D` pairs. -/
class Linkable (α : Type) where
  Linked : Pairing → α → α → Prop
  mono : ∀ {D E : Pairing} {a a' : α}, Linked D a a' → D ⊆ E → Linked E a a'

export Linkable (Linked)

/-- Values without temps are equal. -/
instance (priority := low) sameLink {α : Type} : Linkable α where
  Linked _ a a' := a = a'
  mono h _ := h

instance : Linkable Temp where
  Linked D t t' := (t, t') ∈ D
  mono h hD := hD h

instance : Linkable (List Temp) where
  Linked D := List.Forall₂ fun t t' => (t, t') ∈ D
  mono h hD := h.imp fun _ _ ht => hD ht

instance : Linkable (Option Temp) where
  Linked D
    | none, none => True
    | some t, some t' => (t, t') ∈ D
    | _, _ => False
  mono {_ _ o o'} h hD := by
    cases o <;> cases o'
    · trivial
    · exact h
    · exact h
    · exact hD h

instance : Linkable (Bool × Temp) where
  Linked D p p' := p.1 = p'.1 ∧ (p.2, p'.2) ∈ D
  mono h hD := ⟨h.1, hD h.2⟩

instance : Linkable (List (String × Temp)) where
  Linked D := List.Forall₂ fun p p' => p.1 = p'.1 ∧ (p.2, p'.2) ∈ D
  mono h hD := h.imp fun _ _ hp => ⟨hp.1, hD hp.2⟩

instance : Linkable ScopeSource where
  Linked D
    | .leaf, .leaf => True
    | .received i, .received i' => i = i'
    | .temp t, .temp t' => (t, t') ∈ D
    | _, _ => False
  mono {_ _ a a'} h hD := by
    cases a <;> cases a' <;> first | exact h | exact hD h

instance : Linkable (Option ScopeSource) where
  Linked D
    | none, none => True
    | some a, some a' => Linked D a a'
    | _, _ => False
  mono {_ _ o o'} h hD := by
    cases o <;> cases o' <;> first | exact h | exact Linkable.mono (α := ScopeSource) h hD

instance : Linkable (List ScopeSource) where
  Linked D := List.Forall₂ (Linked D)
  mono h hD := h.imp fun _ _ ha => Linkable.mono ha hD

instance : Linkable Lower.Target where
  Linked D
    | .binding id, .binding id' => id = id'
    | .property object name, .property object' name' => (object, object') ∈ D ∧ name = name'
    | .item object key, .item object' key' => (object, object') ∈ D ∧ (key, key') ∈ D
    | _, _ => False
  mono {_ _ a a'} h hD := by
    cases a <;> cases a' <;>
      first | exact h | exact ⟨hD h.1, h.2⟩ | exact ⟨hD h.1, hD h.2⟩

instance : Linkable Lower.Arguments where
  Linked D
    | .fixed values, .fixed values' => Linked D values values'
    | .collected array, .collected array' => (array, array') ∈ D
    | _, _ => False
  mono {_ _ a a'} h hD := by
    cases a <;> cases a' <;>
      first | exact h | exact Linkable.mono (α := List Temp) h hD | exact hD h

grind_pattern Linkable.mono => Linked D a a', Linked E a a'

section Linked

variable {D : Pairing} {t t' : Temp} {l l' : List Temp}

@[grind =] theorem linked_nil : Linked D ([] : List Temp) [] ↔ True :=
  iff_true_intro .nil

@[grind =] theorem linked_cons :
    Linked D (t :: l) (t' :: l') ↔ (t, t') ∈ D ∧ Linked D l l' :=
  List.forall₂_cons

end Linked

/-- The two operations are the same but for operands that `D` pairs. -/
structure Operation.Linked (D : Pairing) (op op' : Operation) : Prop where
  uses : Linkable.Linked D op.uses op'.uses
  same : op.withUses op'.uses = op'

/-- The two effects are the same but for operands that `D` pairs. -/
structure Effect.Linked (D : Pairing) (effect effect' : Effect) : Prop where
  uses : Linkable.Linked D effect.uses effect'.uses
  same : effect.withUses effect'.uses = effect'

theorem Operation.linked_iff {op op' : Operation} :
    op.Linked D op' ↔ Linkable.Linked D op.uses op'.uses ∧ op.withUses op'.uses = op' :=
  ⟨fun h => ⟨h.uses, h.same⟩, fun h => ⟨h.1, h.2⟩⟩

theorem Effect.linked_iff {effect effect' : Effect} :
    effect.Linked D effect' ↔
      Linkable.Linked D effect.uses effect'.uses ∧ effect.withUses effect'.uses = effect' :=
  ⟨fun h => ⟨h.uses, h.same⟩, fun h => ⟨h.1, h.2⟩⟩

/-- What is called, without the arguments: a function value with the scope chain, or a member. -/
inductive CallForm where
  | value (function scopes : Temp)
  | member (receiver : Temp) (name : String)

namespace CallForm

/-- The call with few plain arguments. -/
def fixed : CallForm → List Temp → Operation
  | .value function scopes => .callValue function scopes
  | .member receiver name => .callMemberFixed receiver name

/-- The call with an argument array. -/
def packed : CallForm → Temp → Operation
  | .value function scopes => .callValuePacked function scopes
  | .member receiver name => .callMember receiver name

/-- The temps of what is called. -/
def temps : CallForm → List Temp
  | .value function scopes => [function, scopes]
  | .member receiver _ => [receiver]

theorem uses_fixed (form : CallForm) (args : List Temp) : (form.fixed args).uses = form.temps ++ args := by
  cases form <;> rfl

theorem uses_packed (form : CallForm) (array : Temp) :
    (form.packed array).uses = form.temps ++ [array] := by
  cases form <;> rfl

/-- The two calls are the same but for temps that `D` pairs. -/
def Linked (D : Pairing) : CallForm → CallForm → Prop
  | .value function scopes, .value function' scopes' => (function, function') ∈ D ∧ (scopes, scopes') ∈ D
  | .member receiver name, .member receiver' name' => (receiver, receiver') ∈ D ∧ name = name'
  | _, _ => False

end CallForm

/-! ### Contexts and sessions on both sides -/

/-- The context with another bound for the calls of fixed arity. -/
def Context.withArity (ctx : Context) (arity : Nat) : Context :=
  { ctx with fixedArity := arity }

/-- The tables that have nothing to do with temps are the same. -/
structure Session.SameTables (s s' : Session) : Prop where
  slots : s'.slots = s.slots
  labelCount : s'.labelCount = s.labelCount
  stateFields : s'.stateFields = s.stateFields
  epilogue : s'.epilogue = s.epilogue
  placements : s'.placements = s.placements
  hoisted : s'.hoisted = s.hoisted
  superCalled : s'.superCalled = s.superCalled
  carrierCount : s'.carrierCount = s.carrierCount

/-- Nothing but those tables has changed. -/
structure Session.KeepsCode (s t : Session) : Prop where
  code : t.code = s.code
  temps : t.temps = s.temps
  regions : t.regions = s.regions
  resumePoints : t.resumePoints = s.resumePoints
  routedCount : t.routedCount = s.routedCount
  events : t.events = s.events

/-! ### Simulations -/

/-- How two runs of the lowering are related. The worlds say which temps correspond, and whatever
else a simulation keeps account of; a step leads from one world to another one. -/
structure Simulation where
  World : Type
  contexts : Context → Context → Prop
  sessions : World → Session → Session → Prop
  temps : World → Temp → Temp → Prop
  /-- What a step in the context may do. -/
  leads : Context → World → World → Prop
  /-- The sessions in which both runs halt, seen from a world before. -/
  halts : World → Halt → Session → Session → Prop
  refl : ∀ ctx w, leads ctx w w
  trans : ∀ {ctx w₁ w₂ w₃}, leads ctx w₁ w₂ → leads ctx w₂ w₃ → leads ctx w₁ w₃
  temps_mono : ∀ {ctx w w' t t'}, leads ctx w w' → temps w t t' → temps w' t t'
  halts_mono : ∀ {ctx w w' halt s s'}, leads ctx w w' → halts w' halt s s' → halts w halt s s'
  arity : ∀ {ctx ctx'}, contexts ctx ctx' → ∃ n, ctx' = ctx.withArity n
  inside : ∀ {ctx ctx'} frames, contexts ctx ctx' →
    contexts { ctx with frames := frames ++ ctx.frames } { ctx' with frames := frames ++ ctx'.frames }
  insideBlock : ∀ {ctx ctx'} block, contexts ctx ctx' →
    contexts { ctx with blocks := block :: ctx.blocks } { ctx' with blocks := block :: ctx'.blocks }
  /-- The tree of all contexts, where a source that is resolved in it must not halt at a dangling
  identifier. -/
  tree? : Option ScopeTree := none
  /-- The lowering may suspend. If not, it is that of a part of a resumable function. -/
  pauses : Bool := true

namespace Simulation

/-- The tree, if there is one, is like this. -/
def Always (Φ : Simulation) (P : ScopeTree → Prop) : Prop :=
  ∀ tree, Φ.tree? = some tree → P tree

/-- What is asked of a source. -/
def Demands (Φ : Simulation) : Demand → Prop
  | .resolved tree => Φ.tree? = some tree
  | .still => Φ.pauses = false

/-- The part of the source is resolved and does not suspend, if this is asked. -/
def Resolves {γ : Type} [Resolvable γ] (Φ : Simulation) (part : γ) : Prop :=
  ∀ d, Φ.Demands d → Meets d part

section Resolves

variable {Φ : Simulation} {γ δ : Type} [Resolvable γ] [Resolvable δ] {part : γ} {other : δ}

theorem Always.imp {P Q : ScopeTree → Prop} (h : Φ.Always P) (himp : ∀ tree, P tree → Q tree) :
    Φ.Always Q :=
  fun tree htree => himp tree (h tree htree)

/-- What is part of something resolved is resolved. -/
theorem Resolves.imp (h : Φ.Resolves part) (himp : ∀ d, Meets d part → Meets d other) :
    Φ.Resolves other :=
  fun d hd => himp d (h d hd)

theorem Resolves.always (h : Φ.Resolves part) : Φ.Always (Resolved · part) :=
  fun tree htree => h (.resolved tree) htree

theorem Resolves.pauses (h : Φ.Resolves part) (hpart : ¬ Meets .still part) : Φ.pauses = true :=
  Bool.of_not_eq_false fun hstill => hpart (h .still hstill)

theorem resolves_of_always {id : ScopeId} (h : Φ.Always (·.HasScope id)) : Φ.Resolves id
  | .resolved tree, htree => h tree htree
  | .still, _ => trivial

theorem resolves_of_none (h : Φ.tree? = none) (hpauses : Φ.pauses = true) (part : γ) :
    Φ.Resolves part
  | .resolved _, htree => nomatch h.symm.trans htree
  | .still, hstill => nomatch hpauses.symm.trans hstill

/-- A binding that is resolved is there. -/
theorem Resolves.binding? {id : BindingId} (h : Φ.Resolves id) :
    Φ.Always fun tree => ∃ b, tree.binding? id = some b :=
  h.always.imp fun _ ⟨b, hb, _⟩ => ⟨b, hb⟩

end Resolves

variable {Φ : Simulation} {D E : Pairing}

/-- All pairs are related. -/
def Holds (Φ : Simulation) (w : Φ.World) (D : Pairing) : Prop :=
  ∀ p ∈ D, Φ.temps w p.1 p.2

theorem holds_nil (w : Φ.World) : Φ.Holds w [] :=
  fun _ hp => absurd hp List.not_mem_nil

variable {α β : Type} [Linkable α] [Linkable β]
variable {ctx : Context} {w : Φ.World}

/-- How two runs from related sessions end. -/
inductive Ends (Φ : Simulation) (ctx : Context) (w : Φ.World) :
    EStateM.Result Halt Session α → EStateM.Result Halt Session α → Prop
  | ok {a a' : α} {s s' : Session} (w' : Φ.World) (E : Pairing) (leads : Φ.leads ctx w w')
      (sessions : Φ.sessions w' s s') (holds : Φ.Holds w' E) (linked : Linked E a a') :
      Ends Φ ctx w (.ok a s) (.ok a' s')
  | error {halt : Halt} {s s' : Session} (halts : Φ.halts w halt s s') :
      Ends Φ ctx w (.error halt s) (.error halt s')

/-- If the temps that `D` pairs are related, the two computations do related things. -/
def Relates (Φ : Simulation) (D : Pairing) (m m' : Lower α) : Prop :=
  ∀ ⦃ctx ctx' : Context⦄ ⦃w : Φ.World⦄ ⦃s s' : Session⦄, Φ.contexts ctx ctx' → Φ.sessions w s s' →
    Φ.Holds w D → Φ.Ends ctx w (m ctx s) (m' ctx' s')

/-- The computation does related things on both sides. -/
abbrev Follows (Φ : Simulation) (D : Pairing) (m : Lower α) : Prop :=
  Φ.Relates D m m

/-- The computation does related things with related temps. -/
abbrev Accepts (Φ : Simulation) (f : Temp → Lower α) : Prop :=
  ∀ t t' E, (t, t') ∈ E → Φ.Relates E (f t) (f t')

theorem Relates.mono {m m' : Lower α} (h : Φ.Relates D m m') (hD : D ⊆ E) : Φ.Relates E m m' :=
  fun _ _ _ _ _ hctx hs hE => h hctx hs fun p hp => hE p (hD hp)

grind_pattern Relates.mono => Φ.Relates D m m', Φ.Relates E m m'

/-! ### Rules -/

omit [Linkable α] [Linkable β] in
theorem bind_halt {m : Lower α} {f : α → Lower β} {s s' : Session} {halt : Halt}
    (h : m ctx s = .error halt s') : (m >>= f) ctx s = .error halt s' := by
  simp only [bind, ReaderT.bind, EStateM.bind, h]

/-! ### Costs -/

/-- An account of what the steps of a simulation cost. -/
structure Tally (Φ : Simulation) where
  /-- What may be done in the context at this cost. -/
  leads : Context → Nat → Φ.World → Φ.World → Prop
  of_leads : ∀ {ctx w w'}, Φ.leads ctx w w' → leads ctx 0 w w'
  trans : ∀ {ctx n k w₁ w₂ w₃}, leads ctx n w₁ w₂ → leads ctx k w₂ w₃ → leads ctx (n + k) w₁ w₃
  temps_mono : ∀ {ctx n w w' t t'}, leads ctx n w w' → Φ.temps w t t' → Φ.temps w' t t'

/-- Nothing costs anything. -/
def free (Φ : Simulation) : Tally Φ where
  leads ctx _ := Φ.leads ctx
  of_leads h := h
  trans := Φ.trans
  temps_mono := Φ.temps_mono

namespace Tally

variable {Ψ : Tally Φ} {n : Nat} {c d : Bool → Nat}

/-- How two runs end that cost `n`. If they halt, they may have cost less. -/
inductive Ends (Ψ : Tally Φ) (ctx : Context) (n : Nat) (w : Φ.World) :
    EStateM.Result Halt Session α → EStateM.Result Halt Session α → Prop
  | ok {a a' : α} {s s' : Session} (w' : Φ.World) (E : Pairing) (leads : Ψ.leads ctx n w w')
      (sessions : Φ.sessions w' s s') (holds : Φ.Holds w' E) (linked : Linked E a a') :
      Ends Ψ ctx n w (.ok a s) (.ok a' s')
  | error {k : Nat} {halt : Halt} {s s' : Session} (w' : Φ.World) (le : k ≤ n)
      (leads : Ψ.leads ctx k w w') (halts : Φ.halts w' halt s s') :
      Ends Ψ ctx n w (.error halt s) (.error halt s')

/-- The two computations do related things, as in `Relates`, and it costs `c`. The cost depends on
whether the function can be suspended. -/
def Costs (Ψ : Tally Φ) (c : Bool → Nat) (D : Pairing) (m m' : Lower α) : Prop :=
  ∀ ⦃ctx ctx' : Context⦄ ⦃w : Φ.World⦄ ⦃s s' : Session⦄, Φ.contexts ctx ctx' → Φ.sessions w s s' →
    Φ.Holds w D → Ψ.Ends ctx (c ctx.isResumable) w (m ctx s) (m' ctx' s')

/-- The computation does related things on both sides, whatever the temps. -/
abbrev Charges (Ψ : Tally Φ) (c : Bool → Nat) (m : Lower α) : Prop :=
  ∀ D, Ψ.Costs c D m m

/-- The computation does related things with related temps. -/
abbrev Accepts (Ψ : Tally Φ) (c : Bool → Nat) (f : Temp → Lower α) : Prop :=
  ∀ t t' E, (t, t') ∈ E → Ψ.Costs c E (f t) (f t')

theorem Ends.of_ends {r r' : EStateM.Result Halt Session α}
    (hleads : ∀ w', Φ.leads ctx w w' → Ψ.leads ctx n w w') (h : Φ.Ends ctx w r r') :
    Ψ.Ends ctx n w r r' := by
  cases h with
  | ok w' E h hs hE hlinked => exact .ok w' E (hleads w' h) hs hE hlinked
  | error hhalts => exact .error w (Nat.zero_le n) (Ψ.of_leads (Φ.refl ctx w)) hhalts

theorem Ends.of_free {r r' : EStateM.Result Halt Session α} (h : Φ.free.Ends ctx n w r r') :
    Φ.Ends ctx w r r' := by
  cases h with
  | ok w' E hleads hs hE hlinked => exact .ok w' E hleads hs hE hlinked
  | error w' _ hleads hhalts => exact .error (Φ.halts_mono hleads hhalts)

/-- What was done before is part of what was done. -/
theorem Ends.of_leads {k : Nat} {w' : Φ.World} {r r' : EStateM.Result Halt Session α}
    (hleads : Ψ.leads ctx n w w') (h : Ψ.Ends ctx k w' r r') : Ψ.Ends ctx (n + k) w r r' := by
  cases h with
  | ok w'' E hleads' hs hE hlinked => exact .ok w'' E (Ψ.trans hleads hleads') hs hE hlinked
  | error w'' hle hleads' hhalts =>
    exact .error w'' (Nat.add_le_add_left hle n) (Ψ.trans hleads hleads') hhalts

/-- What costs something in one context costs the same in another one. -/
theorem Ends.of_context {ctx₁ : Context} {r r' : EStateM.Result Halt Session α}
    (hctx : ∀ k w', Ψ.leads ctx₁ k w w' → Ψ.leads ctx k w w') (h : Ψ.Ends ctx₁ n w r r') :
    Ψ.Ends ctx n w r r' := by
  cases h with
  | ok w' E hleads hs hE hlinked => exact .ok w' E (hctx _ w' hleads) hs hE hlinked
  | error w' hle hleads hhalts => exact .error w' hle (hctx _ w' hleads) hhalts

theorem Costs.of_relates {m m' : Lower α} (h : Φ.Relates D m m') : Ψ.Costs (fun _ => 0) D m m' :=
  fun _ _ _ _ _ hctx hs hD => .of_ends (fun _ => Ψ.of_leads) (h hctx hs hD)

theorem Costs.relates {m m' : Lower α} (h : Φ.free.Costs c D m m') : Φ.Relates D m m' :=
  fun _ _ _ _ _ hctx hs hD => (h hctx hs hD).of_free

/-- One step after the other, where the second one knows that the first one has given its result. -/
theorem Costs.bind_run {m m' : Lower α} {k k' : α → Lower β} (hm : Ψ.Costs c D m m')
    (hk : ∀ E a a', Linked E a a' → (∃ ctx ctx' s s₁, Φ.contexts ctx ctx' ∧ m ctx s = .ok a s₁) →
      Ψ.Costs d (E ++ D) (k a) (k' a')) :
    Ψ.Costs (fun r => c r + d r) D (m >>= k) (m' >>= k') := by
  intro ctx ctx' w s s' hctx hs hD
  have hends := hm hctx hs hD
  cases hleft : m ctx s with
  | ok a s₁ =>
    cases hright : m' ctx' s' with
    | ok a' s₁' =>
      rw [hleft, hright] at hends
      rw [Lower.bind_run hleft, Lower.bind_run hright]
      cases hends with
      | ok w₁ E hleads hs₁ hE hlinked =>
        have hall : Φ.Holds w₁ (E ++ D) := fun p hp =>
          (List.mem_append.1 hp).elim (hE p) fun hp => Ψ.temps_mono hleads (hD p hp)
        exact .of_leads hleads (hk E a a' hlinked ⟨ctx, ctx', s, s₁, hctx, hleft⟩ hctx hs₁ hall)
    | error halt s₁' =>
      rw [hleft, hright] at hends
      cases hends
  | error halt s₁ =>
    cases hright : m' ctx' s' with
    | ok a' s₁' =>
      rw [hleft, hright] at hends
      cases hends
    | error halt' s₁' =>
      rw [hleft, hright] at hends
      rw [bind_halt hleft, bind_halt hright]
      cases hends with
      | error w₁ hle hleads hhalts => exact .error w₁ (Nat.le_add_right_of_le hle) hleads hhalts

theorem Costs.mono {m m' : Lower α} (h : Ψ.Costs c D m m') (hD : D ⊆ E) : Ψ.Costs c E m m' :=
  fun _ _ _ _ _ hctx hs hE => h hctx hs fun p hp => hE p (hD hp)

end Tally

theorem Relates.costs {c : Bool → Nat} {m m' : Lower α} (h : Φ.Relates D m m') : Φ.free.Costs c D m m' :=
  fun _ _ _ _ _ hctx hs hD => .of_ends (fun _ h => h) (h hctx hs hD)

theorem Relates.bind_run {m m' : Lower α} {k k' : α → Lower β} (hm : Φ.Relates D m m')
    (hk : ∀ E a a', Linked E a a' → (∃ ctx ctx' s s₁, Φ.contexts ctx ctx' ∧ m ctx s = .ok a s₁) →
      Φ.Relates (E ++ D) (k a) (k' a')) :
    Φ.Relates D (m >>= k) (m' >>= k') :=
  ((Tally.Costs.of_relates hm).bind_run fun E a a' h hrun => .of_relates (hk E a a' h hrun)).relates

/-- One step after the other. -/
theorem Relates.bind {m m' : Lower α} {k k' : α → Lower β} (hm : Φ.Relates D m m')
    (hk : ∀ E a a', Linked E a a' → Φ.Relates (E ++ D) (k a) (k' a')) :
    Φ.Relates D (m >>= k) (m' >>= k') :=
  hm.bind_run fun E a a' h _ => hk E a a' h

/-- One step after another one that gives a temp. -/
theorem Relates.bind_temp {m m' : Lower Temp} {k k' : Temp → Lower β} (hm : Φ.Relates D m m')
    (hk : ∀ t t', Φ.Relates ((t, t') :: D) (k t) (k' t')) : Φ.Relates D (m >>= k) (m' >>= k') :=
  hm.bind fun _ t t' h => (hk t t').mono (List.cons_subset.2
    ⟨List.mem_append_left _ h, List.subset_append_right _ _⟩)

/-- One step after another one whose result has no temps. -/
theorem Relates.bind_same {γ : Type} {m m' : Lower γ} {k k' : γ → Lower β}
    (hm : @Relates γ sameLink Φ D m m') (hk : ∀ a, Φ.Relates D (k a) (k' a)) :
    Φ.Relates D (m >>= k) (m' >>= k') :=
  @Relates.bind Φ D γ β sameLink _ _ _ _ _ hm fun E a a' h => by
    cases h
    exact (hk a).mono (List.subset_append_right _ _)

namespace Tally.Costs

variable {Ψ : Tally Φ} {c d : Bool → Nat} {γ δ : Type}

/-- A step after another one that costs nothing. -/
theorem after {m m' : Lower α} {k k' : α → Lower β} (hm : Φ.Relates D m m')
    (hk : ∀ E a a', Linked E a a' → (∃ ctx ctx' s s₁, Φ.contexts ctx ctx' ∧ m ctx s = .ok a s₁) →
      Ψ.Costs c (E ++ D) (k a) (k' a')) : Ψ.Costs c D (m >>= k) (m' >>= k') :=
  funext (fun r => Nat.zero_add (c r)) ▸ (of_relates hm).bind_run hk

theorem bind_temp {m m' : Lower Temp} {k k' : Temp → Lower β} (hm : Φ.Relates D m m')
    (hk : ∀ t t', Ψ.Costs c ((t, t') :: D) (k t) (k' t')) : Ψ.Costs c D (m >>= k) (m' >>= k') :=
  after hm fun _ t t' h _ => (hk t t').mono (List.cons_subset.2
    ⟨List.mem_append_left _ h, List.subset_append_right _ _⟩)

theorem bind_same {m m' : Lower γ} {k k' : γ → Lower β} (hm : @Relates γ sameLink Φ D m m')
    (hk : ∀ a, Ψ.Costs c D (k a) (k' a)) : Ψ.Costs c D (m >>= k) (m' >>= k') :=
  @after Φ D γ β sameLink _ _ _ _ _ _ _ hm fun E a a' h _ => by
    cases h
    exact (hk a).mono (List.subset_append_right _ _)

/-- Two steps that both cost something. -/
theorem bind {m m' : Lower γ} {k k' : γ → Lower β} (hm : @Costs Φ γ sameLink Ψ c D m m')
    (hk : ∀ a, Ψ.Costs d D (k a) (k' a)) : Ψ.Costs (fun r => c r + d r) D (m >>= k) (m' >>= k') :=
  @bind_run Φ D γ β sameLink _ Ψ c d _ _ _ _ hm fun E a a' h _ => by
    cases h
    exact (hk a).mono (List.subset_append_right _ _)

/-- A step that costs nothing after another one. -/
theorem before {m m' : Lower γ} {k k' : γ → Lower β} (hm : @Costs Φ γ sameLink Ψ c D m m')
    (hk : ∀ a, Φ.Relates D (k a) (k' a)) : Ψ.Costs c D (m >>= k) (m' >>= k') :=
  hm.bind fun a => .of_relates (hk a)

/-- The cost may be known in the context only. -/
theorem read_bind {k k' : Context → Lower β}
    (harity : ∀ (ctx : Context) (n : Nat), k' (ctx.withArity n) = k' ctx)
    (hk : ∀ ctx, ∃ d, d ctx.isResumable = c ctx.isResumable ∧ Ψ.Costs d D (k ctx) (k' ctx)) :
    Ψ.Costs c D (read >>= k) (read >>= k') := by
  intro ctx ctx' w s s' hctx hs hD
  obtain ⟨n, rfl⟩ := Φ.arity hctx
  obtain ⟨d, hd, hcosts⟩ := hk ctx
  have hends := hcosts hctx hs hD
  rwa [← harity ctx n, hd] at hends

end Tally.Costs

theorem pure_relates {a a' : α} (h : Linked D a a') : Φ.Relates D (pure a : Lower α) (pure a') :=
  fun ctx _ w _ _ _ hs hD => .ok w D (Φ.refl ctx w) hs hD h

/-- What does not depend on the bound of the fixed arity sees the same context on both sides. -/
theorem read_bind {k k' : Context → Lower β}
    (harity : ∀ (ctx : Context) (n : Nat), k' (ctx.withArity n) = k' ctx)
    (hk : ∀ ctx, Φ.Relates D (k ctx) (k' ctx)) : Φ.Relates D (read >>= k) (read >>= k') :=
  (Tally.Costs.read_bind (c := fun _ => 0) harity fun ctx => ⟨_, rfl, .of_relates (hk ctx)⟩).relates

end Simulation

/-! ### The basic steps -/

namespace Lower

/-- Hands a value to the driver, with the label behind the suspend point and the route of a
rejection already at hand. -/
def pause (kind : SuspendKind) (value : Temp) (label : Label) (reject : Option RejectRoute) :
    Lower Temp := do
  let result ← freshTemp .object
  let state ← addResumePoint label (some result) (match kind with
    | .await => .await
    | .yield => .yield)
  emit (.suspend kind value state label result reject)
  place label
  return result

/-- Starts a routed `try`. -/
def openRoute : Lower PendingFields := do
  let fields ← pendingFields
  report (.routed fields.exception)
  return fields

/-- Lowers code inside further frames, innermost first. -/
def withinAll {α : Type} (frames : List Frame) (code : Lower α) : Lower α :=
  fun ctx => code { ctx with frames := frames ++ ctx.frames }

/-- A protected region with its range, which is inside further frames, and its handler. -/
def protect (r : ExceptionRegion) (inner : List Frame) (frame : Frame)
    (range handler : Lower Unit) : Lower Unit := do
  withinAll (.guarded :: inner) do
    place r.tryStart
    range
  place r.handlerStart
  within frame handler
  place r.handlerEnd
  addRegion r

end Lower

open Lower

/-- The instruction reads no temp, defines none and throws nothing. -/
def Instr.isBare : Instr → Bool
  | .label _ | .branch _ | .leave _ | .endFinally | .dispatch _ _ => true
  | _ => false

namespace Simulation

/-- The steps of the lowering that are not made of others follow the simulation, but for the start
of a routed `try`. -/
structure Plain (Φ : Simulation) : Prop where
  within : ∀ {ctx frame w w'}, frame.isNative = false →
    Φ.leads { ctx with frames := frame :: ctx.frames } w w' → Φ.leads ctx w w'
  withinBlock : ∀ {ctx block w w'},
    Φ.leads { ctx with blocks := block :: ctx.blocks } w w' → Φ.leads ctx w w'
  tables : ∀ {w s s'}, Φ.sessions w s s' → s.SameTables s'
  aside : ∀ {w s s' t t'} ctx, Φ.sessions w s s' → s.KeepsCode t → s'.KeepsCode t' →
    t.SameTables t' → ∃ w', Φ.leads ctx w w' ∧ Φ.sessions w' t t'
  storage : ∀ {w s s' t t'}, Φ.sessions w s s' → Φ.temps w t t' →
    s'.temps[t'.index]?.getD .unknown = s.temps[t.index]?.getD .unknown
  define : ∀ {D storage op op'}, op.Linked D op' → Φ.Relates D (define storage op) (define storage op')
  perform : ∀ {D effect effect'}, effect.Linked D effect' →
    Φ.Relates D (perform effect) (perform effect')
  bare : ∀ {D i}, i.isBare = true → Φ.Relates D (emit i) (emit i)
  branchIf : ∀ {D expected t t' l}, (t, t') ∈ D →
    Φ.Relates D (branchIf expected t l) (branchIf expected t' l)
  ret : ∀ {D t t'}, (t, t') ∈ D → Φ.Relates D (emit (.ret t)) (emit (.ret t'))
  asNumber : ∀ {D t t'}, (t, t') ∈ D → Φ.Relates D (asNumber t) (asNumber t')
  call : ∀ {D args args'} form form', Linked D args args' → CallForm.Linked D form form' →
    Φ.Relates D (emitCall args form.fixed form.packed) (emitCall args' form'.fixed form'.packed)
  pause : ∀ {D kind t t' label reject}, Φ.pauses = true → (t, t') ∈ D →
    Φ.Relates D (pause kind t label reject) (pause kind t' label reject)
  resumePoint : ∀ {D label}, Φ.Relates D (addResumePoint label none .reject)
    (addResumePoint label none .reject)
  throwValue : ∀ {D t t'}, (t, t') ∈ D → Φ.Relates D (throwValue t) (throwValue t')
  protect : ∀ {D r inner frame range handler}, (∀ f ∈ inner, f.isNative = false) →
    (∀ D, Φ.Relates D range range) → (∀ D, Φ.Relates D handler handler) →
    Φ.Relates D (protect r inner frame range handler) (protect r inner frame range handler)
  declined : ∀ {w s s'} reason, Φ.sessions w s s' → Φ.halts w (.declined reason)
    { s with events := s.events.push (.declined reason) }
    { s' with events := s'.events.push (.declined reason) }
  tree : ∀ {ctx ctx'}, Φ.contexts ctx ctx' → Φ.Always (ctx.tree = ·)
  resumable : ∀ {ctx ctx'}, Φ.contexts ctx ctx' → Φ.pauses = false → ctx.isResumable = true
  closed : Φ.Always ScopeTree.Closed
  dangling : ∀ {w s s'}, Φ.tree? = none → Φ.sessions w s s' → Φ.halts w .dangling s s'

/-- The steps of the lowering that are not made of others follow the simulation. -/
structure Lawful (Φ : Simulation) : Prop extends Φ.Plain where
  openRoute : ∀ {D}, Φ.Relates D openRoute openRoute

/-- The steps around and inside of `try` statements come at a cost. A routed `try` costs one. -/
structure Tally.Lawful {Φ : Simulation} (Ψ : Tally Φ) : Prop where
  within : ∀ {ctx frame n w w'}, frame.isNative = false →
    Ψ.leads { ctx with frames := frame :: ctx.frames } n w w' → Ψ.leads ctx n w w'
  withinBlock : ∀ {ctx block n w w'},
    Ψ.leads { ctx with blocks := block :: ctx.blocks } n w w' → Ψ.leads ctx n w w'
  openRoute : ∀ {D}, Ψ.Costs (fun _ => 1) D openRoute openRoute
  protect : ∀ {c d D r inner frame range handler}, (∀ f ∈ inner, f.isNative = false) →
    Ψ.Charges c range → Ψ.Charges d handler → Ψ.Costs (fun b => c b + d b) D
      (protect r inner frame range handler) (protect r inner frame range handler)

/-- What a region costs, if the frames around code do not matter for what it may do. -/
theorem Tally.protect_costs {Φ : Simulation} {Ψ : Tally Φ} {c d : Bool → Nat} {D : Pairing}
    {r : ExceptionRegion} {inner : List Frame} {frame : Frame} {range handler : Lower Unit}
    (hframes : ∀ {ctx frames k w w'},
      Ψ.leads { ctx with frames := frames ++ ctx.frames } k w w' → Ψ.leads ctx k w w')
    (hplace : ∀ l, Φ.Relates D (place l) (place l)) (hregion : Φ.Relates D (addRegion r) (addRegion r))
    (hrange : Ψ.Charges c range) (hhandler : Ψ.Charges d handler) : Ψ.Costs (fun b => c b + d b) D
      (protect r inner frame range handler) (protect r inner frame range handler) := by
  have hwithin : ∀ {e : Bool → Nat} {m : Lower Unit} (frames : List Frame), Ψ.Costs e D m m →
      Ψ.Costs e D (withinAll frames m) (withinAll frames m) :=
    fun frames h _ _ _ _ _ hctx hs hD => (h (Φ.inside frames hctx) hs hD).of_context fun _ _ => hframes
  exact .bind (c := c) (d := d) (hwithin _ (.bind_same (hplace _) fun _ => hrange D)) fun _ =>
    .bind_same (hplace _) fun _ => .before (hwithin [frame] (hhandler D)) fun _ =>
      .bind_same (hplace _) fun _ => hregion

attribute [class] Plain Lawful Tally.Lawful

instance {Φ : Simulation} [h : Φ.Lawful] : Φ.Plain :=
  h.toPlain

instance {Φ : Simulation} [h : Φ.Lawful] : Φ.free.Lawful where
  within := h.within
  withinBlock := h.withinBlock
  openRoute := @fun _ => h.openRoute.costs
  protect hinner hrange hhandler :=
    (h.protect hinner (fun D => (hrange D).relates) fun D => (hhandler D).relates).costs

end Simulation

end ScriptLowering
