import Statechart.Text.Decimal

/-!
# Quoted text

Texts as JSON strings. `Quoted.write` escapes the quote, the backslash and the characters below
U+0020, and nothing else. `Quoted.read` takes every escape of the grammar. A literal can be well
formed and still stand for no text, when it holds half of a surrogate pair; then `read` says where
it ends and gives no text.
-/

namespace Statechart

namespace Quoted

/-! ### Writing -/

/-- A hexadecimal digit in lower case. -/
def hexChar (d : Nat) : Char := if d < 10 then Decimal.digitChar d else Char.ofNat (87 + d)

/-- The written form of one character. -/
def escape (c : Char) : List Char :=
  if c = '"' then ['\\', '"']
  else if c = '\\' then ['\\', '\\']
  else if 32 ≤ c.toNat then [c]
  else if c = '\x08' then ['\\', 'b']
  else if c = '\t' then ['\\', 't']
  else if c = '\n' then ['\\', 'n']
  else if c = '\x0c' then ['\\', 'f']
  else if c = '\r' then ['\\', 'r']
  else ['\\', 'u', '0', '0', hexChar (c.toNat / 16), hexChar (c.toNat % 16)]

/-- The literal of a text, quotes included. -/
def write (s : String) : List Char := '"' :: (s.toList.flatMap escape ++ ['"'])

/-! ### Reading -/

/-- The value of a hexadecimal digit of either case. -/
def hexValue? (c : Char) : Option Nat :=
  let n := c.toNat
  if 48 ≤ n ∧ n ≤ 57 then some (n - 48)
  else if 97 ≤ n ∧ n ≤ 102 then some (n - 87)
  else if 65 ≤ n ∧ n ≤ 70 then some (n - 55)
  else none

/-- The value of four hexadecimal digits. -/
def unit? (a b c d : Char) : Option Nat := do
  let a ← hexValue? a
  let b ← hexValue? b
  let c ← hexValue? c
  let d ← hexValue? d
  return ((a * 16 + b) * 16 + c) * 16 + d

/-- Is this unit the first half of a surrogate pair? -/
def isHigh (u : Nat) : Bool := decide (0xD800 ≤ u ∧ u ≤ 0xDBFF)

/-- Is this unit the second half of a surrogate pair? -/
def isLow (u : Nat) : Bool := decide (0xDC00 ≤ u ∧ u ≤ 0xDFFF)

/-- The character of a surrogate pair. -/
def pairChar (high low : Nat) : Char :=
  Char.ofNat (0x10000 + (high - 0xD800) * 0x400 + (low - 0xDC00))

/-- The character that a one-letter escape stands for. -/
def escaped? (c : Char) : Option Char :=
  if c = '"' ∨ c = '\\' ∨ c = '/' then some c
  else if c = 'b' then some '\x08'
  else if c = 'f' then some '\x0c'
  else if c = 'n' then some '\n'
  else if c = 'r' then some '\r'
  else if c = 't' then some '\t'
  else none

/-- What is left after a literal, and its characters unless some escape stands for none. -/
structure Literal where
  chars : Option (List Char)
  rest : List Char

/-- The literal with one more character in front. -/
def Literal.push (c : Char) (l : Literal) : Literal := { l with chars := l.chars.map (c :: ·) }

/-- The literal with something in front that stands for no character. -/
def Literal.spoil (l : Literal) : Literal := { l with chars := none }

/-- The second half of a surrogate pair at the front, and what follows it. -/
def lowUnit? : List Char → Option (Nat × List Char)
  | '\\' :: 'u' :: a :: b :: c :: d :: rest =>
    match unit? a b c d with
    | some u => if isLow u then some (u, rest) else none
    | none => none
  | _ => none

theorem length_of_lowUnit? {cs rest : List Char} {u : Nat} (h : lowUnit? cs = some (u, rest)) :
    rest.length < cs.length := by
  unfold lowUnit? at h
  split at h
  · split at h
    · split at h
      · simp only [Option.some.injEq, Prod.mk.injEq] at h
        rw [← h.2]
        simp only [List.length_cons]
        omega
      · simp at h
    · simp at h
  · simp at h

/-- Read a literal whose opening quote is gone. There is none if the text breaks the grammar. -/
def read (cs : List Char) : Option Literal :=
  match cs with
  | [] => none
  | '"' :: rest => some ⟨some [], rest⟩
  | '\\' :: 'u' :: a :: b :: c :: d :: rest =>
    match unit? a b c d with
    | none => none
    | some u =>
      if isHigh u then
        match _h : lowUnit? rest with
        | some (v, rest') => (read rest').map (·.push (pairChar u v))
        | none => (read rest).map (·.spoil)
      else if isLow u then (read rest).map (·.spoil)
      else (read rest).map (·.push (Char.ofNat u))
  | '\\' :: e :: rest =>
    match escaped? e with
    | some c => (read rest).map (·.push c)
    | none => none
  | c :: rest =>
    if c.toNat < 32 ∨ c = '\\' then none else (read rest).map (·.push c)
termination_by cs.length
decreasing_by
  all_goals simp only [List.length_cons]
  all_goals try have hlow := length_of_lowUnit? ‹_›
  all_goals omega

end Quoted

end Statechart
