import Mathlib.Data.List.Nodup
import Mathlib.Data.List.Perm.Subperm
import Mathlib.Logic.Relation
import ScriptLowering.Registry

/-!
# Lines of descent

A class is registered under its name, and what it extends is a name again. The classes that are met
on the way from one parent to the next make up the lineage of a class. As long as no class descends
from itself, no class is met twice, so a lineage is never cut short and that of a class continues
with that of its parent.

Then the three questions about classes have one answer. A class descends from another one where a
way leads from it to the other one; a class has subclasses where another class descends from it; and
what a class has under some name is what the first class on its way declares.

## Main results

* `Registry.Acyclic.lineage_eq`: lineages follow the parents;
* `Registry.Acyclic.isSubclassOf_iff`: the descendants of a class;
* `Registry.ofList_descent`: descent is a partial order, the classes without subclasses are those
  that no other class descends from, and members come from the nearest class that declares them.
-/

namespace ScriptLowering.Registry

variable {r : Registry} {K C D : String} {c : ClassInfo} {bound : Nat}

/-- The class of the first name extends the second one. -/
def Extends (r : Registry) (K C : String) : Prop :=
  ∃ c, r.class? K = some c ∧ c.parent = some C

/-- No class descends from itself. -/
def Acyclic (r : Registry) : Prop :=
  ∀ K, ¬ Relation.TransGen r.Extends K K

/-- Going up from the class, `declaring` is the first one with a declaration, which is `member`. -/
def Finds {α : Type} (r : Registry) (K : String) (declared? : ClassInfo → Option α)
    (declaring : ClassInfo) (member : α) : Prop :=
  ∃ front rest, r.lineage K = front ++ declaring :: rest ∧ (∀ c ∈ front, declared? c = none) ∧
    declared? declaring = some member

theorem name_of_class? (h : r.class? K = some c) : c.name = K ∧ c ∈ r.classes := by
  have hname := List.find?_some h
  exact ⟨beq_iff_eq.1 hname, List.mem_of_find?_eq_some h⟩

/-- A way leads up to each class of a line of descent. -/
theorem mem_descent (h : c ∈ r.descent bound K) :
    r.class? c.name = some c ∧ Relation.ReflTransGen r.Extends K c.name := by
  induction bound generalizing K with
  | zero => cases h
  | succ bound ih =>
    unfold descent at h
    split at h
    · cases h
    · rename_i d hd
      rcases List.mem_cons.1 h with rfl | h
      · obtain rfl := (name_of_class? hd).1
        exact ⟨hd, .refl⟩
      · split at h
        · cases h
        · rename_i parent hparent
          obtain ⟨hc, hway⟩ := ih h
          exact ⟨hc, .head ⟨d, hd, hparent⟩ hway⟩

/-- Only the class itself descends from a class without subclasses. -/
theorem eq_of_isSubclassOf (hleaf : r.hasSubclasses C = false) (h : r.isSubclassOf K C) :
    K = C := by
  obtain ⟨c, hc, hname⟩ := List.any_eq_true.1 h
  obtain rfl := beq_iff_eq.1 hname
  rcases (mem_descent hc).2.cases_tail with heq | ⟨_, -, d, hd, hparent⟩
  · exact heq.symm
  · have hsub : r.hasSubclasses c.name = true :=
      List.any_eq_true.2 ⟨d, (name_of_class? hd).2, by simp [hparent]⟩
    cases hleaf.symm.trans hsub

theorem nodup_ofList (classes : List ClassInfo) :
    ((ofList classes).classes.map ClassInfo.name).Nodup := by
  suffices h : ∀ (r : Registry), (r.classes.map ClassInfo.name).Nodup →
      ((classes.foldl register r).classes.map ClassInfo.name).Nodup from h {} List.nodup_nil
  induction classes with
  | nil => exact fun r h => h
  | cons c classes ih =>
    refine fun r h => ih _ (List.nodup_cons.2 ⟨?_, ?_⟩)
    · simp
    · exact (List.filter_sublist.map ClassInfo.name).nodup h

/-- A registered class is found under its name. -/
theorem class?_of_mem (hnames : (r.classes.map ClassInfo.name).Nodup) (hc : c ∈ r.classes) :
    r.class? c.name = some c := by
  obtain ⟨d, hd⟩ := Option.isSome_iff_exists.1 (show (r.class? c.name).isSome from
    List.find?_isSome.2 ⟨c, hc, by simp⟩)
  obtain ⟨hname, hmem⟩ := name_of_class? hd
  rw [← List.inj_on_of_nodup_map hnames hmem hc hname]
  exact hname ▸ hd

/-! ### Lineages without a cycle -/

/-- A larger bound makes no difference where the smaller one has not been reached. -/
theorem descent_succ (h : (r.descent (bound + 1) K).length ≤ bound) :
    r.descent (bound + 1) K = r.descent bound K := by
  induction bound generalizing K with
  | zero => exact List.length_eq_zero_iff.1 (Nat.le_zero.1 h)
  | succ bound ih =>
    unfold descent at h ⊢
    split
    · rfl
    · rename_i c hc
      simp only [hc, List.length_cons, Nat.add_le_add_iff_right] at h
      cases hparent : c.parent with
      | none => rfl
      | some parent =>
        simp only [hparent] at h ⊢
        rw [ih h]

namespace Acyclic

variable (h : r.Acyclic)

include h

theorem nodup_descent (bound : Nat) (K : String) :
    ((r.descent bound K).map ClassInfo.name).Nodup := by
  induction bound generalizing K with
  | zero => exact List.nodup_nil
  | succ bound ih =>
    unfold descent
    split
    · exact List.nodup_nil
    · rename_i c hc
      cases hparent : c.parent with
      | none => exact List.nodup_singleton _
      | some parent =>
        refine List.nodup_cons.2 ⟨fun hmem => ?_, ih parent⟩
        obtain ⟨d, hd, hname⟩ := List.mem_map.1 hmem
        rw [(name_of_class? hc).1] at hname
        exact h K (.head' ⟨c, hc, hparent⟩ (hname ▸ (mem_descent hd).2))

/-- The lineage of a class is the class, and then the lineage of its parent. -/
theorem lineage_eq (hc : r.class? K = some c) :
    r.lineage K = c :: c.parent.elim [] r.lineage := by
  have hsub : (r.descent (r.classes.length + 1) K).map ClassInfo.name ⊆
      r.classes.map ClassInfo.name :=
    List.map_subset _ fun d hd => (name_of_class? (mem_descent hd).1).2
  have hle := (List.subperm_of_subset (h.nodup_descent _ K) hsub).length_le
  simp only [List.length_map] at hle
  rw [lineage, ← descent_succ hle, descent]
  simp only [hc]
  cases c.parent <;> rfl

theorem isSubclassOf_iff :
    r.isSubclassOf K C = true ↔ (r.class? C).isSome ∧ Relation.ReflTransGen r.Extends K C := by
  constructor
  · intro hK
    obtain ⟨c, hc, hname⟩ := List.any_eq_true.1 hK
    obtain rfl := beq_iff_eq.1 hname
    obtain ⟨hclass, hway⟩ := mem_descent hc
    exact ⟨Option.isSome_of_eq_some hclass, hway⟩
  · rintro ⟨hC, hway⟩
    obtain ⟨c, hc⟩ := Option.isSome_iff_exists.1 hC
    induction hway using Relation.ReflTransGen.head_induction_on with
    | refl => simp [isSubclassOf, h.lineage_eq hc, (name_of_class? hc).1]
    | head hstep _ ih =>
      obtain ⟨d, hd, hparent⟩ := hstep
      rw [isSubclassOf, h.lineage_eq hd, hparent, List.any_cons]
      exact Bool.or_eq_true_iff.2 (.inr ih)

theorem isSubclassOf_trans (hC : r.isSubclassOf K C) (hD : r.isSubclassOf C D) :
    r.isSubclassOf K D := by
  rw [h.isSubclassOf_iff] at hC hD ⊢
  exact ⟨hD.1, hC.2.trans hD.2⟩

theorem isSubclassOf_antisymm (hC : r.isSubclassOf K C) (hK : r.isSubclassOf C K) : K = C := by
  rw [h.isSubclassOf_iff] at hC hK
  rcases Relation.reflTransGen_iff_eq_or_transGen.1 hC.2 with heq | hway
  · exact heq.symm
  · exact absurd (hway.trans_left hK.2) (h K)

/-- A class that is extended has another class below it. -/
theorem exists_isSubclassOf (hnames : (r.classes.map ClassInfo.name).Nodup)
    (hC : (r.class? C).isSome) (hsub : r.hasSubclasses C) :
    ∃ K, (r.class? K).isSome ∧ K ≠ C ∧ r.isSubclassOf K C := by
  obtain ⟨d, hd, hparent⟩ := List.any_eq_true.1 hsub
  have hclass := class?_of_mem hnames hd
  have hextends : r.Extends d.name C := ⟨d, hclass, by simpa using hparent⟩
  exact ⟨d.name, Option.isSome_of_eq_some hclass, fun heq => h C (.single (heq ▸ hextends)),
    h.isSubclassOf_iff.2 ⟨hC, .single hextends⟩⟩

/-- What a class does not declare itself is what its parent has. -/
theorem findSome?_lineage {α : Type} {declared? : ClassInfo → Option α} (hc : r.class? K = some c)
    (hparent : c.parent = some D) (hnone : declared? c = none) :
    (r.lineage K).findSome? declared? = (r.lineage D).findSome? declared? := by
  rw [h.lineage_eq hc, hparent, List.findSome?_cons_of_isNone (by simp [hnone])]
  rfl

end Acyclic

theorem findSome?_lineage_iff {α : Type} {declared? : ClassInfo → Option α} {member : α} :
    (r.lineage K).findSome? declared? = some member ↔
      ∃ declaring, r.Finds K declared? declaring member := by
  rw [List.findSome?_eq_some_iff]
  constructor
  · rintro ⟨front, declaring, rest, hlineage, hmember, hfront⟩
    exact ⟨declaring, front, rest, hlineage, hfront, hmember⟩
  · rintro ⟨declaring, front, rest, hlineage, hfront, hmember⟩
    exact ⟨front, declaring, rest, hlineage, hmember, hfront⟩

theorem instanceMethod?_eq_some_iff {name : String} {arity : Nat} {method : MethodInfo} :
    r.instanceMethod? K name arity = some (c, method) ↔
      r.Finds K (·.instanceMethod? name arity) c method := by
  refine findSome?_lineage_iff.trans ⟨?_, ?_⟩
  · rintro ⟨found, front, rest, hlineage, hfront, hfound⟩
    obtain ⟨m, hm, heq⟩ := Option.map_eq_some_iff.1 hfound
    cases heq
    exact ⟨front, rest, hlineage, fun d hd => Option.map_eq_none_iff.1 (hfront d hd), hm⟩
  · rintro ⟨front, rest, hlineage, hfront, hm⟩
    exact ⟨c, front, rest, hlineage, fun d hd => by simp [hfront d hd], by simp [hm]⟩

/-- Where no class descends from itself, the questions about classes agree. Descent is a partial
order on the registered names; a class has no subclasses exactly where no other class descends from
it; and methods and fields are those of the nearest class in the lineage that declares one, so that
a class without a declaration of its own has what its parent has. -/
theorem ofList_descent {classes : List ClassInfo} (hr : r = ofList classes) (h : r.Acyclic) :
    (∀ K, (r.class? K).isSome → r.isSubclassOf K K) ∧
    (∀ K C D, r.isSubclassOf K C → r.isSubclassOf C D → r.isSubclassOf K D) ∧
    (∀ K C, r.isSubclassOf K C → r.isSubclassOf C K → K = C) ∧
    (∀ C, (r.class? C).isSome → (r.hasSubclasses C = false ↔
      ∀ K, (r.class? K).isSome → K ≠ C → r.isSubclassOf K C = false)) ∧
    (∀ K c, r.class? K = some c → r.lineage K = c :: c.parent.elim [] r.lineage) ∧
    (∀ K name arity c method, r.instanceMethod? K name arity = some (c, method) ↔
      r.Finds K (·.instanceMethod? name arity) c method) ∧
    (∀ K name field, r.field? K name = some field ↔ ∃ c, r.Finds K (·.field? name) c field) ∧
    ∀ K c D, r.class? K = some c → c.parent = some D →
      (∀ name arity, c.instanceMethod? name arity = none →
        r.instanceMethod? K name arity = r.instanceMethod? D name arity) ∧
      ∀ name, c.field? name = none → r.field? K name = r.field? D name := by
  refine ⟨fun K hK => h.isSubclassOf_iff.2 ⟨hK, .refl⟩, fun _ _ _ => h.isSubclassOf_trans,
    fun _ _ => h.isSubclassOf_antisymm, fun C hC => ⟨fun hleaf K _ hne => ?_, fun hnone => ?_⟩,
    fun _ _ => h.lineage_eq, fun _ _ _ _ _ => instanceMethod?_eq_some_iff,
    fun _ _ _ => findSome?_lineage_iff, fun K c D hc hparent => ⟨fun name arity hnone => ?_,
      fun name hnone => h.findSome?_lineage hc hparent hnone⟩⟩
  · exact Bool.eq_false_iff.2 fun hK => hne (eq_of_isSubclassOf hleaf hK)
  · refine Bool.eq_false_iff.2 fun hsub => ?_
    obtain ⟨K, hK, hne, hbelow⟩ := h.exists_isSubclassOf (hr ▸ nodup_ofList classes) hC hsub
    exact Bool.eq_false_iff.1 (hnone K hK hne) hbelow
  · exact h.findSome?_lineage hc hparent (by simp [hnone])

/-- `class P { x; }` and `class C extends P {}`. -/
def inheriting : List ClassInfo :=
  [({ name := "P" } : ClassInfo).addField "x" none, { name := "C", parent := some "P" }]

theorem ofList_descent_inheriting : (ofList inheriting).Acyclic ∧
    (ofList inheriting).field? "C" "x" = (ofList inheriting).field? "P" "x" := by
  have hedge : ∀ K C, (ofList inheriting).Extends K C → K = "C" ∧ C = "P" := by
    rintro K C ⟨c, hc, hparent⟩
    have hall : ∀ c ∈ (ofList inheriting).classes, ∀ C ∈ c.parent, c.name = "C" ∧ C = "P" := by
      decide +kernel
    obtain ⟨rfl, hmem⟩ := name_of_class? hc
    exact hall c hmem C hparent
  have hacyclic : (ofList inheriting).Acyclic := fun K hcycle => by
    obtain ⟨C, hfirst, -⟩ := Relation.TransGen.head'_iff.1 hcycle
    obtain ⟨D, -, hlast⟩ := Relation.TransGen.tail'_iff.1 hcycle
    exact absurd ((hedge _ _ hfirst).1.symm.trans (hedge _ _ hlast).2) (by decide)
  obtain ⟨-, -, -, -, -, -, -, hinherits⟩ := ofList_descent rfl hacyclic
  exact ⟨hacyclic, (hinherits "C" _ "P" rfl rfl).2 "x" (by decide +kernel)⟩

end ScriptLowering.Registry
