import Statechart.Delay

/-!
# Reading the key of a delay

A count is written as its numeral, and the numeral reads as the count (`Delay.word?_text`). A name
is written as it is, so it is read as a name unless it is a numeral itself: `Delay.ofKey_key_iff`.

A count has many numerals, with a sign or zeros at the front, of which its key is one
(`Delay.Spells`). So a key need not be what its delay is written as, but what the delay is written
as is read as the same delay again: `Delay.ofKey_key_ofKey`.
-/

namespace Statechart

namespace Delay

/-! ### Numerals -/

/-- The text is a numeral for `n`: ASCII digits, at least one, with a plus sign before them or
without. Zeros at the front count for nothing, and `n` may be of any size. -/
inductive Spells : String → Nat → Prop where
  | unsigned {ds : List Char} (ne_nil : ds ≠ []) (isDigit : ∀ c ∈ ds, Decimal.isDigit c = true) :
      Spells (String.ofList ds) (Decimal.value ds)
  | signed {ds : List Char} (ne_nil : ds ≠ []) (isDigit : ∀ c ∈ ds, Decimal.isDigit c = true) :
      Spells (String.ofList ('+' :: ds)) (Decimal.value ds)

theorem spells_text (n : Nat) : Spells (Decimal.text n) n := by
  have h := Spells.unsigned (Decimal.digits_ne_nil n) fun _ hc ↦ Decimal.isDigit_of_mem_digits hc
  rw [Decimal.value_digits] at h
  exact h

/-- A numeral reads as its number if the number fits into a word. -/
theorem word?_of_spells {s : String} {n : Nat} (h : Spells s n) (hn : n < UInt64.size) :
    word? s = some (UInt64.ofNat n) := by
  cases h with
  | unsigned hne hdigit =>
    rw [word?, String.toList_ofList]
    split
    -- a digit is no sign
    · next ds => exact absurd (hdigit '+' List.mem_cons_self) (by decide)
    · exact if_pos ⟨hne, List.all_eq_true.2 hdigit, hn⟩
  | signed hne hdigit =>
    rw [word?, String.toList_ofList]
    exact if_pos ⟨hne, List.all_eq_true.2 hdigit, hn⟩

/-- **What reads as a word** is a numeral for it. -/
theorem word?_eq_some_iff {s : String} {w : UInt64} : word? s = some w ↔ Spells s w.toNat := by
  constructor
  · intro h
    rw [word?, Option.ite_none_right_eq_some, Option.some.injEq] at h
    obtain ⟨⟨hne, hall, hlt⟩, rfl⟩ := h
    rw [UInt64.toNat_ofNat_of_lt' hlt]
    have hdigit := List.all_eq_true.1 hall
    obtain ⟨cs, rfl⟩ : ∃ cs, s = String.ofList cs := ⟨s.toList, String.ofList_toList.symm⟩
    rw [String.toList_ofList] at hne hdigit ⊢
    clear hall hlt
    revert hne hdigit
    split
    · exact fun hne hdigit ↦ .signed hne hdigit
    · exact fun hne hdigit ↦ .unsigned hne hdigit
  · intro h
    rw [word?_of_spells h w.toNat_lt_size, UInt64.ofNat_toNat]

theorem word?_eq_none_iff {s : String} : word? s = none ↔ ∀ n < UInt64.size, ¬Spells s n := by
  constructor
  · intro h n hn hspells
    rw [word?_of_spells hspells hn] at h
    cases h
  · intro h
    rw [Option.eq_none_iff_forall_not_mem]
    exact fun w hw ↦ h w.toNat w.toNat_lt_size (word?_eq_some_iff.1 hw)

/-- The numeral of a number that fits into a word reads as the number. -/
theorem word?_text {n : Nat} (h : n < UInt64.size) :
    word? (Decimal.text n) = some (UInt64.ofNat n) :=
  word?_of_spells (spells_text n) h

/-! ### Keys -/

theorem ofKey_key_millis (ms : UInt64) : ofKey (key (.millis ms)) = .millis ms := by
  rw [ofKey, key, word?_text ms.toNat_lt_size, UInt64.ofNat_toNat]

/-- Is the delay a name that reads as a count? -/
def isNumeral : Delay → Bool
  | .millis _ => false
  | .named name => (word? name).isSome

/-- What a key reads as is no such name. -/
theorem isNumeral_ofKey (k : String) : (ofKey k).isNumeral = false := by
  rw [ofKey]
  cases h : word? k with
  | some ms => rfl
  | none => simp only [isNumeral, h, Option.isSome_none]

/-- A delay is what its key reads as, unless it is a name that reads as a count. -/
theorem ofKey_key_iff {d : Delay} : ofKey d.key = d ↔ d.isNumeral = false := by
  constructor
  · intro h
    rw [← h]
    exact isNumeral_ofKey d.key
  · intro h
    cases d with
    | millis ms => exact ofKey_key_millis ms
    | named name =>
      have hword : word? name = none := Option.isNone_iff_eq_none.1 (Option.isSome_eq_false_iff.1 h)
      rw [ofKey, key, hword]

/-- Delays that are what their keys read as are told apart by their keys. -/
theorem key_injOn {d e : Delay} (hd : d.isNumeral = false) (he : e.isNumeral = false)
    (h : d.key = e.key) : d = e := by
  rw [← ofKey_key_iff.2 hd, h, ofKey_key_iff.2 he]

theorem ofKey_eq_millis_iff {k : String} {ms : UInt64} :
    ofKey k = .millis ms ↔ Spells k ms.toNat := by
  rw [← word?_eq_some_iff, ofKey]
  cases word? k <;> simp

theorem ofKey_eq_named_iff {k name : String} :
    ofKey k = .named name ↔ k = name ∧ ∀ n < UInt64.size, ¬Spells k n := by
  rw [← word?_eq_none_iff, ofKey]
  cases word? k <;> simp

/-- A key that is written again is read as the delay that it was read as before. -/
theorem ofKey_key_ofKey (k : String) : ofKey (ofKey k).key = ofKey k :=
  ofKey_key_iff.2 (isNumeral_ofKey k)

theorem isNumeral_eq_true_iff {d : Delay} :
    d.isNumeral = true ↔ ∃ name, d = .named name ∧ ∃ n < UInt64.size, Spells name n := by
  cases d with
  | millis ms => simp [isNumeral]
  | named name =>
    have hword : (word? name).isSome = true ↔ ∃ n < UInt64.size, Spells name n := by
      rw [← Option.ne_none_iff_isSome, Ne, word?_eq_none_iff]
      simp
    simp only [isNumeral, hword, named.injEq, exists_eq_left']

/-- **Reading keys.** A key is a count if it is a numeral for a number that fits into a word, and
the name that it is written as otherwise. Read once, it is stable: writing the delay and reading it
again changes nothing. A delay that was not read from a key is stable too, unless it is a name that
is such a numeral. -/
theorem ofKey_key_ofKey_and_ofKey_key_eq_self_iff :
    (∀ k ms, ofKey k = .millis ms ↔ Spells k ms.toNat) ∧
      (∀ k name, ofKey k = .named name ↔ k = name ∧ ∀ n < UInt64.size, ¬Spells k n) ∧
      (∀ k, ofKey (ofKey k).key = ofKey k) ∧
      ∀ d : Delay, ofKey d.key = d ↔
        ¬∃ name, d = .named name ∧ ∃ n < UInt64.size, Spells name n := by
  refine ⟨fun _ _ ↦ ofKey_eq_millis_iff, fun _ _ ↦ ofKey_eq_named_iff, ofKey_key_ofKey, fun d ↦ ?_⟩
  rw [ofKey_key_iff, ← Bool.not_eq_true]
  exact not_congr isNumeral_eq_true_iff

example : ofKey "+007" = .millis 7 ∧ (ofKey "+007").key = "7" := by decide +kernel

example : ofKey "18446744073709551615" = .millis 18446744073709551615 ∧
    ofKey "18446744073709551616" = .named "18446744073709551616" := by decide +kernel

end Delay

end Statechart
