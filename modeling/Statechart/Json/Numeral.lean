import Statechart.Json.Value
import Statechart.Number.Shortest
import Statechart.Text.Decimal

/-!
# Numerals

Numbers as JSON text.

A numeral without fraction and exponent is an integer if it fits into 64 bits, signed when it is
negative and unsigned otherwise. Every other numeral is a double, and so is `-0`. A double is read
from the leading digits that fit into an unsigned word, scaled by a power of ten with one rounding
(`scale?`): for up to fifteen digits and small exponents this is the nearest double, beyond that
it may be a neighbour of it.

A double is written with the fewest digits that tell it apart, positionally between `10 ^ -5` and
`10 ^ 16` and in scientific form outside.
-/

namespace Statechart

namespace Numeral

/-! ### Reading -/

/-- The largest unsigned word. -/
def wordMax : Nat := UInt64.size - 1

/-- Digits read so far: the significand that they form, and the power of ten that scales it. -/
structure Reading where
  significand : Nat
  exponent : Int
  /-- Some digit did not fit any more. -/
  full : Bool

/-- Read one digit of the integer part. A digit that does not fit scales the significand. -/
def Reading.integerDigit (r : Reading) (c : Char) : Reading :=
  let next := r.significand * 10 + Decimal.digitValue c
  if r.full || wordMax < next then { r with exponent := r.exponent + 1, full := true }
  else { r with significand := next }

/-- Read one digit of the fraction. A digit that does not fit, and all after it, are dropped. -/
def Reading.fractionDigit (r : Reading) (c : Char) : Reading :=
  let next := r.significand * 10 + Decimal.digitValue c
  if r.full || wordMax < next then { r with full := true }
  else { r with significand := next, exponent := r.exponent - 1 }

/-- Divide `x` by `10 ^ 308` until the negative exponent is at least `-308`, then scale. -/
def scaleDown? : Nat → Binary64 → Nat → Option Binary64
  | 0, x, _ => some x
  | fuel + 1, x, e =>
    if e ≤ 308 then (Binary64.tenPow? e).bind fun p ↦ x.div? p
    else if x.isZero then some x
    else (Binary64.tenPow? 308).bind fun p ↦ (x.div? p).bind fun y ↦ scaleDown? fuel y (e - 308)

/-- `significand * 10 ^ exponent` as a double: the rounded significand times or divided by the
rounded power of ten. There is none beyond the largest finite double. Four divisions by `10 ^ 308`
take every significand to zero. -/
def scale? (significand : Nat) (exponent : Int) : Option Binary64 := do
  let x ← Binary64.ofRatio? significand 1
  if 0 ≤ exponent then
    if exponent ≤ 308 then
      let p ← Binary64.tenPow? exponent.toNat
      x.mul? p
    else if x.isZero then some x
    else none
  else scaleDown? 5 x (-exponent).toNat

/-- The largest exponent that is taken at its value. -/
def exponentMax : Nat := Nat.pow 2 31 - 1

/-- `e` within the range of a signed 32-bit word. -/
def clampExponent (e : Int) : Int := max (-(exponentMax : Int) - 1) (min e exponentMax)

/-- The parts of a numeral: sign, digits before and after the point, and the exponent with its
sign. An absent fraction or exponent is `none`. -/
structure Parts where
  negative : Bool
  integer : List Char
  fraction : Option (List Char)
  exponent : Option (Bool × List Char)

/-- The double that the parts stand for, or `none` if it is out of range. -/
def Parts.real? (p : Parts) : Option Binary64 :=
  let whole := p.integer.foldl Reading.integerDigit ⟨0, 0, false⟩
  let all := (p.fraction.getD []).foldl Reading.fractionDigit { whole with full := false }
  let magnitude :=
    match p.exponent with
    | none => scale? all.significand all.exponent
    | some (below, ds) =>
      let e := Decimal.value ds
      if exponentMax < e then
        if all.significand ≠ 0 ∧ below = false then none else some Binary64.zero
      else
        let shifted := if below then all.exponent - e else all.exponent + e
        scale? all.significand (clampExponent shifted)
  magnitude.map fun x ↦ if p.negative then x.neg else x

/-- The number that the parts stand for, or `none` if it is out of range. -/
def Parts.number? (p : Parts) : Option Number :=
  match p.fraction, p.exponent with
  | none, none =>
    let n := Decimal.value p.integer
    if p.negative then
      if n ≠ 0 ∧ n ≤ Nat.pow 2 63 then some (.int (-n)) else p.real?.map .real
    else if n ≤ wordMax then some (.int n)
    else p.real?.map .real
  | _, _ => p.real?.map .real

/-! ### Writing -/

/-- Which magnitudes are written positionally, by the exponent of the leading digit. -/
structure Style where
  least : Int
  greatest : Int

/-- Doubles are written positionally from `10 ^ -5` up to, and without, `10 ^ 16`. -/
def style : Style := ⟨-5, 15⟩

/-- `n` zeros. -/
def zeros (n : Nat) : List Char := List.replicate n '0'

/-- A decimal magnitude in positional form, with at least one digit on each side of the point. -/
def positional (ds : List Char) (exponent : Int) : List Char :=
  let point := (ds.length : Int) + exponent
  if 0 ≤ exponent then ds ++ zeros exponent.toNat ++ ['.', '0']
  else if 0 < point then ds.take point.toNat ++ '.' :: ds.drop point.toNat
  else '0' :: '.' :: zeros (-point).toNat ++ ds

/-- A decimal magnitude in scientific form: one digit before the point, which is left out if no
other digit follows, and an exponent that always has a sign. -/
def scientific (ds : List Char) (leading : Int) : List Char :=
  let mantissa :=
    match ds with
    | [] => []
    | [d] => [d]
    | d :: rest => d :: '.' :: rest
  let sign := if leading < 0 then '-' else '+'
  mantissa ++ 'e' :: sign :: Decimal.digits leading.natAbs

/-- The text of a magnitude. -/
def magnitudeChars (rank : Nat) : List Char :=
  if rank = 0 then ['0', '.', '0']
  else
    let d := Binary64.shortest rank
    let ds := Decimal.digits d.coefficient
    let leading := (ds.length : Int) + d.exponent - 1
    if style.least ≤ leading ∧ leading ≤ style.greatest then positional ds d.exponent
    else scientific ds leading

/-- The text of an integer. -/
def intChars (i : Int) : List Char :=
  if i < 0 then '-' :: Decimal.digits i.natAbs else Decimal.digits i.natAbs

/-- The text of a double. -/
def realChars (x : Binary64) : List Char :=
  if x.negative then '-' :: magnitudeChars x.rank else magnitudeChars x.rank

end Numeral

/-- The text of a number. -/
def Number.chars : Number → List Char
  | .int i => Numeral.intChars i
  | .real x => Numeral.realChars x

end Statechart
