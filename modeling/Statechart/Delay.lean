import Statechart.Text.Decimal

/-!
# Delays

A delay is a count of milliseconds, which fits into an unsigned 64-bit word, or a name. Both are
written as one text, the *key*; a key that reads as a word is a count.
-/

namespace Statechart

/-- When a delayed transition is due. -/
inductive Delay where
  | millis (ms : UInt64)
  | named (name : String)
deriving DecidableEq

namespace Delay

/-- The word that a numeral stands for: ASCII digits, at least one, with a plus sign before them or
without, and with any number of leading zeros. There is none from `2 ^ 64` on. -/
def word? (s : String) : Option UInt64 :=
  let ds := match s.toList with
    | '+' :: ds => ds
    | ds => ds
  if ds ≠ [] ∧ ds.all Decimal.isDigit ∧ Decimal.value ds < UInt64.size then
    some (UInt64.ofNat (Decimal.value ds))
  else none

/-- The delay that a key stands for. -/
def ofKey (key : String) : Delay :=
  match word? key with
  | some ms => .millis ms
  | none => .named key

/-- The key of a delay. -/
def key : Delay → String
  | .millis ms => Decimal.text ms.toNat
  | .named name => name

/-- Is the delay a name? -/
def isNamed : Delay → Bool
  | .named _ => true
  | .millis _ => false

end Delay

end Statechart
