import Mathlib.Data.List.Forall2
import ScriptLowering.Code.Instr

/-!
# Operands

The operands of an operation are its temps, in order. `Operation.withUses` puts others in their
place and keeps everything else: the kind of the operation, its names, fields and constants. Two
operations are the same but for their temps if the second one is the first one with the operands of
the second.
-/

namespace ScriptLowering

/-- The chain elements with other temps. -/
def ScopeSource.withTemps : List ScopeSource → List Temp → List ScopeSource
  | [], _ => []
  | .temp t :: sources, ts => .temp (ts.headD t) :: withTemps sources ts.tail
  | source :: sources, ts => source :: withTemps sources ts

/-- The operation with other operands. Those for which there is no other stay. -/
def Operation.withUses (op : Operation) (ts : List Temp) : Operation :=
  match op with
  | .copy t => .copy (ts.headD t)
  | .coerce kind t => .coerce kind (ts.headD t)
  | .typeOf t => .typeOf (ts.headD t)
  | .isNullish t => .isNullish (ts.headD t)
  | .isUndefined t => .isUndefined (ts.headD t)
  | .isInstance t className => .isInstance (ts.headD t) className
  | .numericUnary op t => .numericUnary op (ts.headD t)
  | .not t => .not (ts.headD t)
  | .loadScopeField t field => .loadScopeField (ts.headD t) field
  | .getProperty t name => .getProperty (ts.headD t) name
  | .getLength t => .getLength (ts.headD t)
  | .loadField t className field => .loadField (ts.headD t) className field
  | .normalizeIterable t => .normalizeIterable (ts.headD t)
  | .closure callable t isArrow => .closure callable (ts.headD t) isArrow
  | .numeric op l r => .numeric op (ts.headD l) (ts.tail.headD r)
  | .compare op l r => .compare op (ts.headD l) (ts.tail.headD r)
  | .concat l r => .concat (ts.headD l) (ts.tail.headD r)
  | .add l r => .add (ts.headD l) (ts.tail.headD r)
  | .addToNumber l r => .addToNumber (ts.headD l) (ts.tail.headD r)
  | .dynamic op l r => .dynamic op (ts.headD l) (ts.tail.headD r)
  | .getItem l r => .getItem (ts.headD l) (ts.tail.headD r)
  | .getElement l r => .getElement (ts.headD l) (ts.tail.headD r)
  | .callMember l name r => .callMember (ts.headD l) name (ts.tail.headD r)
  | .newValue l r => .newValue (ts.headD l) (ts.tail.headD r)
  | .buildScopes sources => .buildScopes (ScopeSource.withTemps sources ts)
  | .newArray _ => .newArray ts
  | .packArguments _ => .packArguments ts
  | .callStatic className name callable _ => .callStatic className name callable ts
  | .callGlobal name _ => .callGlobal name ts
  | .callIntrinsicMember intrinsic method _ => .callIntrinsicMember intrinsic method ts
  | .callRuntime helper _ => .callRuntime helper ts
  | .newClass className _ => .newClass className ts
  | .newIntrinsic intrinsic _ => .newIntrinsic intrinsic ts
  | .newObject properties => .newObject ((properties.map (·.1)).zip ts)
  | .callFunction callable scopes _ => .callFunction callable (ts.headD scopes) ts.tail
  | .callValue function scopes _ =>
    .callValue (ts.headD function) (ts.tail.headD scopes) ts.tail.tail
  | .callValuePacked function scopes packed =>
    .callValuePacked (ts.headD function) (ts.tail.headD scopes) (ts.tail.tail.headD packed)
  | .callMethodValue function receiver scopes packed =>
    .callMethodValue (ts.headD function) (ts.tail.headD receiver) (ts.tail.tail.headD scopes)
      (ts.tail.tail.tail.headD packed)
  | .callMemberFixed receiver name _ => .callMemberFixed (ts.headD receiver) name ts.tail
  | .callTyped guarded className name callable receiver _ =>
    .callTyped guarded className name callable (ts.headD receiver) ts.tail
  | .literal _ | .loadSlot _ | .loadArgument _ | .loadThis | .loadException | .newScope _
  | .loadLeafField _ | .loadParentField _ _ | .newError _ _ | .globalValue _ | .classValue _ => op

/-- The effect with other operands. -/
def Effect.withUses (effect : Effect) (ts : List Temp) : Effect :=
  match effect with
  | .storeSlot slot t => .storeSlot slot (ts.headD t)
  | .storeArgument index t => .storeArgument index (ts.headD t)
  | .createLeaf _ => effect
  | .storeLeafField field t => .storeLeafField field (ts.headD t)
  | .storeParentField index field t => .storeParentField index field (ts.headD t)
  | .storeScopeField s field t => .storeScopeField (ts.headD s) field (ts.tail.headD t)
  | .appendItem s t => .appendItem (ts.headD s) (ts.tail.headD t)
  | .appendAll s t => .appendAll (ts.headD s) (ts.tail.headD t)
  | .setProperty s name t => .setProperty (ts.headD s) name (ts.tail.headD t)
  | .storeField s className field ty t => .storeField (ts.headD s) className field ty (ts.tail.headD t)
  | .setItem object key value =>
    .setItem (ts.headD object) (ts.tail.headD key) (ts.tail.tail.headD value)
  | .callSuper className _ => .callSuper className ts

theorem ScopeSource.withTemps_temps (sources : List ScopeSource) :
    withTemps sources (sources.filterMap temp?) = sources := by
  induction sources with
  | nil => rfl
  | cons source sources ih =>
    cases source with
    | temp t => exact congrArg (ScopeSource.temp t :: ·) ih
    | leaf => exact congrArg (ScopeSource.leaf :: ·) ih
    | received index => exact congrArg (ScopeSource.received index :: ·) ih

theorem Operation.withUses_uses (op : Operation) : op.withUses op.uses = op := by
  cases op with
  | buildScopes sources => exact congrArg Operation.buildScopes (ScopeSource.withTemps_temps sources)
  | newObject properties =>
    exact congrArg Operation.newObject (List.zip_of_prod rfl rfl).symm
  | _ => rfl

theorem Effect.withUses_uses (effect : Effect) : effect.withUses effect.uses = effect := by
  cases effect <;> rfl

/-! ### Renaming -/

/-- The operation on temps of other names. -/
def Operation.rename (ρ : Temp → Temp) (op : Operation) : Operation :=
  op.withUses (op.uses.map ρ)

/-- The effect on temps of other names. -/
def Effect.rename (ρ : Temp → Temp) (effect : Effect) : Effect :=
  effect.withUses (effect.uses.map ρ)

/-- The instruction with other names for its temps. -/
def Instr.rename (ρ : Temp → Temp) : Instr → Instr
  | .define result op => .define (ρ result) (op.rename ρ)
  | .perform effect => .perform (effect.rename ρ)
  | .branchIf expected condition target => .branchIf expected (ρ condition) target
  | .ret value => .ret (ρ value)
  | .raise value => .raise (ρ value)
  | .suspend kind value state resume result reject =>
    .suspend kind (ρ value) state resume (ρ result) reject
  | .asyncReject reason => .asyncReject (ρ reason)
  | i => i

/-- The chain element in a temp of another name. -/
def ScopeSource.rename (ρ : Temp → Temp) : ScopeSource → ScopeSource
  | .temp t => .temp (ρ t)
  | source => source

section Rename

variable (ρ σ : Temp → Temp)

theorem ScopeSource.withTemps_map (sources : List ScopeSource) :
    withTemps sources ((sources.filterMap temp?).map ρ) = sources.map (rename ρ) := by
  induction sources with
  | nil => rfl
  | cons source sources ih =>
    cases source with
    | temp t => exact congrArg (ScopeSource.temp (ρ t) :: ·) ih
    | leaf => exact congrArg (ScopeSource.leaf :: ·) ih
    | received index => exact congrArg (ScopeSource.received index :: ·) ih

theorem ScopeSource.temp?_rename (source : ScopeSource) :
    (source.rename ρ).temp? = source.temp?.map ρ := by
  cases source <;> rfl

theorem ScopeSource.rename_rename (source : ScopeSource) :
    (source.rename ρ).rename σ = source.rename (σ ∘ ρ) := by
  cases source <;> rfl

theorem Operation.rename_buildScopes (sources : List ScopeSource) :
    (buildScopes sources).rename ρ = .buildScopes (sources.map (ScopeSource.rename ρ)) :=
  congrArg buildScopes (ScopeSource.withTemps_map ρ sources)

theorem Operation.rename_newObject (properties : List (String × Temp)) :
    (newObject properties).rename ρ = .newObject (properties.map (Prod.map id ρ)) := by
  refine congrArg newObject (List.zip_of_prod ?_ ?_).symm
  · simp
  · simp [uses, Function.comp_def]

theorem Operation.uses_rename (op : Operation) : (op.rename ρ).uses = op.uses.map ρ := by
  cases op with
  | buildScopes sources =>
    rw [rename_buildScopes]
    simp [uses, ScopeSource.temp?_rename, List.filterMap_map, List.map_filterMap]
  | newObject properties =>
    rw [rename_newObject]
    simp [uses, Function.comp_def]
  | _ => simp [rename, withUses, uses]

theorem Operation.rename_rename (op : Operation) :
    (op.rename ρ).rename σ = op.rename (σ ∘ ρ) := by
  cases op with
  | buildScopes sources => simp [rename_buildScopes, ScopeSource.rename_rename]
  | newObject properties => simp [rename_newObject, Prod.map_comp_map]
  | _ => simp [rename, withUses, uses]

theorem Operation.rename_id (op : Operation) : op.rename id = op := by
  rw [rename, List.map_id, withUses_uses]

theorem Effect.uses_rename (effect : Effect) : (effect.rename ρ).uses = effect.uses.map ρ := by
  cases effect <;> rfl

theorem Effect.rename_rename (effect : Effect) :
    (effect.rename ρ).rename σ = effect.rename (σ ∘ ρ) := by
  cases effect <;> simp [rename, withUses, uses]

theorem Effect.rename_id (effect : Effect) : effect.rename id = effect := by
  rw [rename, List.map_id, withUses_uses]

namespace Instr

/-- The temps of the instruction: those that it reads and the one that it defines. -/
def temps (i : Instr) : List Temp :=
  i.result?.toList ++ i.uses

theorem temps_define (result : Temp) (op : Operation) : (define result op).temps = result :: op.uses :=
  rfl

theorem temps_rename (i : Instr) : (i.rename ρ).temps = i.temps.map ρ := by
  cases i with
  | define result op => simp [rename, temps, result?, uses, Operation.uses_rename]
  | perform effect => simp [rename, temps, result?, uses, Effect.uses_rename]
  | _ => simp [rename, temps, result?, uses]

theorem rename_rename (i : Instr) : (i.rename ρ).rename σ = i.rename (σ ∘ ρ) := by
  cases i with
  | define result op => simp [rename, Operation.rename_rename]
  | perform effect => simp [rename, Effect.rename_rename]
  | _ => rfl

theorem rename_id (i : Instr) : i.rename id = i := by
  cases i with
  | define result op => simp [rename, Operation.rename_id]
  | perform effect => simp [rename, Effect.rename_id]
  | _ => rfl

end Instr

end Rename

end ScriptLowering
