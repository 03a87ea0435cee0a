/-!
# Decimal numerals

Natural numbers as ASCII digits. `Decimal.digits` writes a number without leading zeros,
`Decimal.value` reads any run of digits. The two meet in `value_digits`; `digits_ne_nil` and
`isDigit_of_mem_digits` say that what is written is a nonempty run of digits.
-/

namespace Statechart

namespace Decimal

/-- The character of a digit below ten. -/
def digitChar (d : Nat) : Char := Char.ofNat (48 + d)

/-- Is `c` one of the ten ASCII digits? -/
def isDigit (c : Char) : Bool := decide (48 ≤ c.toNat ∧ c.toNat ≤ 57)

/-- The number that a digit stands for. -/
def digitValue (c : Char) : Nat := c.toNat - 48

/-- The numeral of `n`, most significant digit first, without leading zeros. -/
def digits (n : Nat) : List Char :=
  if n < 10 then [digitChar n] else digits (n / 10) ++ [digitChar (n % 10)]

/-- The numeral of `n` as text. -/
def text (n : Nat) : String := String.ofList (digits n)

/-- The number that a run of digits stands for, read after the digits of `start`. -/
def valueFrom (start : Nat) (cs : List Char) : Nat :=
  cs.foldl (fun n c ↦ n * 10 + digitValue c) start

/-- The number that a run of digits stands for. Leading zeros count for nothing. -/
def value (cs : List Char) : Nat := valueFrom 0 cs

/-! ### Writing and reading -/

theorem isDigit_digitChar {d : Nat} (h : d < 10) : isDigit (digitChar d) = true := by
  match d, h with
  | 0, _ | 1, _ | 2, _ | 3, _ | 4, _ | 5, _ | 6, _ | 7, _ | 8, _ | 9, _ => rfl

theorem digitValue_digitChar {d : Nat} (h : d < 10) : digitValue (digitChar d) = d := by
  match d, h with
  | 0, _ | 1, _ | 2, _ | 3, _ | 4, _ | 5, _ | 6, _ | 7, _ | 8, _ | 9, _ => rfl

theorem digits_ne_nil (n : Nat) : digits n ≠ [] := by
  rw [digits]
  split <;> simp

theorem isDigit_of_mem_digits {n : Nat} {c : Char} (h : c ∈ digits n) : isDigit c = true := by
  induction n using digits.induct with
  | case1 n hn =>
    rw [digits, if_pos hn, List.mem_singleton] at h
    exact h ▸ isDigit_digitChar hn
  | case2 n hn ih =>
    rw [digits, if_neg hn, List.mem_append, List.mem_singleton] at h
    cases h with
    | inl h => exact ih h
    | inr h => exact h ▸ isDigit_digitChar (Nat.mod_lt _ (by decide))

theorem valueFrom_append (start : Nat) (xs ys : List Char) :
    valueFrom start (xs ++ ys) = valueFrom (valueFrom start xs) ys := by
  simp [valueFrom, List.foldl_append]

/-- Reading a numeral gives back the number it was written from. -/
theorem value_digits (n : Nat) : value (digits n) = n := by
  induction n using digits.induct with
  | case1 n hn =>
    rw [digits, if_pos hn]
    simp [value, valueFrom, digitValue_digitChar hn]
  | case2 n hn ih =>
    rw [digits, if_neg hn, value, valueFrom_append]
    rw [value] at ih
    rw [ih]
    simp only [valueFrom, List.foldl_cons, List.foldl_nil,
      digitValue_digitChar (Nat.mod_lt n (by decide : 0 < 10))]
    omega

end Decimal

end Statechart
