import ScriptLowering.Proofs.Emission.Placement

/-!
# Names of state fields

The capture object of a resumable function has fields of two kinds: those that the lowering makes
up, and those in which variables live. This module lists the names that are made up. There are the
ten fixed ones, the fields of routed statements, which carry the number of the statement, and the
carriers of loops and blocks, which carry a number of their own.

A variable of a block lives in a field that is named after the variable and its number, with a
dollar sign in between. What stands behind the last dollar sign tells such a name from all names
that are made up: there it is nothing but digits.
-/

namespace ScriptLowering

variable {n : Nat} {base name : String}

/-! ### Numbers -/

theorem toString_injective {m : Nat} (h : toString m = toString n) : m = n := by
  have hdigits : Nat.toDigits 10 m = Nat.toDigits 10 n := by
    simpa [Nat.repr_eq_ofList_toDigits] using congrArg String.toList h
  rw [← Nat.ofDigitChars_toDigits (b := 10) (n := m) (by decide) (by decide), hdigits,
    Nat.ofDigitChars_toDigits (by decide) (by decide)]

theorem isDigit_of_mem_toString {c : Char} (h : c ∈ (toString n).toList) :
    c.isDigit = true := by
  rw [Nat.toString_eq_repr, Nat.repr_eq_ofList_toDigits, String.toList_ofList] at h
  exact Nat.isDigit_of_mem_toDigits (by decide) (by decide) h

/-! ### Routed statements -/

theorem dollar_notMem_toString (n : Nat) : '$' ∉ (toString n).toList :=
  fun h => absurd (isDigit_of_mem_toString h) (by decide)

namespace PendingFields

variable {m n : Nat}

/-- The names of the state fields. -/
def names (fields : PendingFields) : List String :=
  [fields.exception, fields.hasException, fields.returnValue, fields.hasReturn]

/-- What the names of the statement with the given number end in. -/
def suffix (n : Nat) : String :=
  if n = 0 then "" else toString n

/-- The fields of the routed statement with the given number. -/
def numbered (n : Nat) : PendingFields where
  exception := "_pendingException" ++ suffix n
  hasException := "_hasPendingException" ++ suffix n
  returnValue := "_pendingReturn" ++ suffix n
  hasReturn := "_hasPendingReturn" ++ suffix n

/-- What the names start with. -/
def stems : List String :=
  ["_pendingException", "_hasPendingException", "_pendingReturn", "_hasPendingReturn"]

theorem names_numbered (n : Nat) : (numbered n).names = stems.map (· ++ suffix n) := rfl

theorem stems_nodup : stems.Nodup := by decide

/-- No stem is the beginning of another one. -/
theorem not_prefix_of_mem_stems :
    ∀ a ∈ stems, ∀ b ∈ stems, a ≠ b → ¬ a.toList <+: b.toList := by decide

theorem mem_toList_stem {stem : String} (h : stem ∈ stems) :
    '_' ∈ stem.toList ∧ '$' ∉ stem.toList := by
  simp only [stems, List.mem_cons, List.not_mem_nil, or_false] at h
  rcases h with rfl | rfl | rfl | rfl <;> decide

theorem names_numbered_nodup (n : Nat) : (numbered n).names.Nodup :=
  stems_nodup.map fun _ _ h => (String.append_left_inj _).1 h

theorem suffix_injective (h : suffix m = suffix n) : m = n := by
  have hzero : ∀ k : Nat, toString k = "" → k = 0 := fun k hk => by
    have hdigits := congrArg String.toList hk
    rw [Nat.toString_eq_repr, Nat.repr_eq_ofList_toDigits, String.toList_ofList] at hdigits
    rw [← Nat.ofDigitChars_toDigits (b := 10) (n := k) (by decide) (by decide), hdigits]
    rfl
  unfold suffix at h
  split at h <;> split at h
  · omega
  · exact absurd (hzero n h.symm) ‹_›
  · exact absurd (hzero m h) ‹_›
  · exact toString_injective h

theorem dollar_notMem_suffix (n : Nat) : '$' ∉ (suffix n).toList := by
  unfold suffix
  split
  · decide
  · exact dollar_notMem_toString n

/-- Different statements have different fields. -/
theorem numbered_injective {name : String} (hm : name ∈ (numbered m).names)
    (hn : name ∈ (numbered n).names) : m = n := by
  rw [names_numbered] at hm hn
  obtain ⟨a, ha, rfl⟩ := List.mem_map.1 hm
  obtain ⟨b, hb, heq⟩ := List.mem_map.1 hn
  by_cases hab : a = b
  · subst hab
    exact (suffix_injective ((String.append_right_inj _).1 heq)).symm
  -- of two different stems, one would have to begin with the other
  have hlist : b.toList ++ (suffix n).toList = a.toList ++ (suffix m).toList := by
    simpa using congrArg String.toList heq
  rcases List.prefix_or_prefix_of_prefix (List.prefix_append b.toList (suffix n).toList)
    (hlist ▸ List.prefix_append a.toList (suffix m).toList) with hba | hba
  · exact (not_prefix_of_mem_stems b hb a ha (Ne.symm hab) hba).elim
  · exact (not_prefix_of_mem_stems a ha b hb hab hba).elim

end PendingFields

/-! ### All names -/

/-- What the carriers that survive a suspension are for. -/
def carrierHints : List String :=
  ["scope", "forInKeys", "forInLength", "forInIndex", "iterator"]

theorem exists_not_digit_hint {hint : String} (h : hint ∈ carrierHints) :
    (∃ c ∈ hint.toList, c.isDigit = false) ∧ '$' ∉ hint.toList := by
  have hchars : ∀ hint ∈ carrierHints,
      hint.toList.any (!·.isDigit) = true ∧ '$' ∉ hint.toList := by decide
  obtain ⟨hany, hdollar⟩ := hchars hint h
  exact ⟨by simpa using hany, hdollar⟩

/-- The name is one that the lowering gives to a state field. -/
inductive StateName : String → Prop
  | fixed (field : StateField) : StateName field.name
  | pending {n : Nat} {name : String} (h : name ∈ (PendingFields.numbered n).names) : StateName name
  | carrier {hint : String} (h : hint ∈ carrierHints) (n : Nat) : StateName ("$" ++ hint ++ toString n)

namespace StateName

theorem exception (n : Nat) : StateName (PendingFields.numbered n).exception :=
  .pending (.head _)

theorem hasException (n : Nat) : StateName (PendingFields.numbered n).hasException :=
  .pending (.tail _ (.head _))

theorem returnValue (n : Nat) : StateName (PendingFields.numbered n).returnValue :=
  .pending (.tail _ (.tail _ (.head _)))

theorem hasReturn (n : Nat) : StateName (PendingFields.numbered n).hasReturn :=
  .pending (.tail _ (.tail _ (.tail _ (.head _))))

end StateName

/-- The name is one that the lowering gives to a state field, or to the field of a variable of a
block. -/
inductive GeneratedName : String → Prop
  | state {name : String} (h : StateName name) : GeneratedName name
  | numbered (base : String) (n : Nat) : GeneratedName (base ++ "$" ++ toString n)

/-- The text behind the last dollar sign, backwards. -/
def lastPart (name : String) : List Char :=
  name.toList.reverse.takeWhile (· ≠ '$')

theorem ne_dollar_of_mem {part : List Char} (h : '$' ∉ part) :
    ∀ c ∈ part.reverse, decide (c ≠ '$') = true := by
  intro c hc
  rw [decide_eq_true_eq]
  rintro rfl
  exact h (List.mem_reverse.1 hc)

theorem lastPart_append {part : String} (h : '$' ∉ part.toList) :
    lastPart (base ++ "$" ++ part) = part.toList.reverse := by
  have hsplit : (base ++ "$" ++ part).toList.reverse
      = part.toList.reverse ++ '$' :: base.toList.reverse := by simp
  rw [lastPart, hsplit, List.takeWhile_append_of_pos (ne_dollar_of_mem h),
    List.takeWhile_cons_of_neg (by decide), List.append_nil]

theorem lastPart_of_notMem (h : '$' ∉ name.toList) :
    lastPart name = name.toList.reverse :=
  List.takeWhile_eq_self_iff.2 (ne_dollar_of_mem h)

/-- Variables of blocks with different numbers live in different fields. -/
theorem numbered_injective {base' : String} {n' : Nat}
    (h : base ++ "$" ++ toString n = base' ++ "$" ++ toString n') : n = n' := by
  have hparts := congrArg lastPart h
  rw [lastPart_append (dollar_notMem_toString n), lastPart_append (dollar_notMem_toString n'),
    List.reverse_inj] at hparts
  exact toString_injective (String.toList_inj.1 hparts)

/-- Behind the last dollar sign of a made-up name there is more than digits. -/
theorem StateName.exists_not_digit (h : StateName name) :
    ∃ c ∈ lastPart name, c.isDigit = false := by
  cases h with
  | fixed field =>
    have hany : (lastPart field.name).any (!·.isDigit) = true := by cases field <;> decide
    simpa using hany
  | @pending n _ hname =>
    obtain ⟨stem, hstem, rfl⟩ := List.mem_map.1 (PendingFields.names_numbered n ▸ hname)
    obtain ⟨hunderscore, hdollar⟩ := PendingFields.mem_toList_stem hstem
    refine ⟨'_', ?_, by decide⟩
    rw [lastPart_of_notMem]
    · simp [hunderscore]
    · simp [hdollar, PendingFields.dollar_notMem_suffix]
  | @carrier hint hhint n =>
    obtain ⟨⟨c, hc, hdigit⟩, hdollar⟩ := exists_not_digit_hint hhint
    have hname : "$" ++ hint ++ toString n = "" ++ "$" ++ (hint ++ toString n) := by
      rw [String.empty_append, String.append_assoc]
    refine ⟨c, ?_, hdigit⟩
    rw [hname, lastPart_append]
    · simp [hc]
    · rw [String.toList_append, List.mem_append, not_or]
      exact ⟨hdollar, dollar_notMem_toString n⟩

/-- No state field is the field of a variable of a block. -/
theorem StateName.ne_numbered (h : StateName name) :
    name ≠ base ++ "$" ++ toString n := by
  rintro rfl
  obtain ⟨c, hc, hdigit⟩ := h.exists_not_digit
  rw [lastPart_append (dollar_notMem_toString n), List.mem_reverse] at hc
  rw [isDigit_of_mem_toString hc] at hdigit
  cases hdigit

/-- A name without underscores and dollar signs is nowhere made up. -/
theorem GeneratedName.mem (h : GeneratedName name) :
    '_' ∈ name.toList ∨ '$' ∈ name.toList := by
  cases h with
  | numbered base n => exact .inr (by simp)
  | state h =>
    cases h with
    | fixed field => cases field <;> decide
    | @pending n _ hname =>
      obtain ⟨stem, hstem, rfl⟩ := List.mem_map.1 (PendingFields.names_numbered n ▸ hname)
      exact .inl (by simp [PendingFields.mem_toList_stem hstem])
    | carrier => exact .inr (by simp)

end ScriptLowering
