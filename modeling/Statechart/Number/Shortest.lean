import Statechart.Number.Binary64

/-!
# The shortest decimal of a double

The fewest significant digits that read back as the same double and, among those, the decimal
nearest to it. For each count of digits only the two neighbours of the exact value on that decimal
grid need a look: if any point of the grid rounds to the double, one of them does.
-/

namespace Statechart

namespace Binary64

/-- A decimal magnitude: `coefficient * 10 ^ exponent`. -/
structure Decimal where
  coefficient : Nat
  exponent : Int
deriving DecidableEq

/-- The number of decimal digits of `n`; zero has none. -/
def decimalLength (n : Nat) : Nat :=
  if n = 0 then 0 else decimalLength (n / 10) + 1

/-- `c * 10 ^ e` as a fraction. -/
def Decimal.fraction (d : Decimal) : Nat × Nat :=
  (d.coefficient * Nat.pow 10 d.exponent.toNat, Nat.pow 10 (-d.exponent).toNat)

/-- Does the decimal round to the magnitude of rank `r`? It does between the midpoints to the
neighbouring magnitudes, and on a midpoint exactly if the significand is even. -/
def roundsTo (r : Nat) (d : Decimal) : Bool :=
  let (num, den) := d.fraction
  let point := 2 * num * unit
  let below := (stepsOf (r - 1) + stepsOf r) * den
  let above := (stepsOf r + stepsOf (r + 1)) * den
  if r % 2 == 0 then below ≤ point && point ≤ above else below < point && point < above

/-- The decimal exponent of the leading digit of the magnitude of rank `r`, which is not zero. -/
def leadingExponent (r : Nat) : Int :=
  (decimalLength (stepsOf r * Nat.pow 10 324 / unit) : Int) - 325

/-- The neighbour of the magnitude of rank `r` on the grid of `count` digits that rounds to it, the
nearer one if both do; a tie goes to the even neighbour. -/
def gridNeighbour? (r count : Nat) : Option Decimal :=
  let e := leadingExponent r - ((count : Int) - 1)
  let num := stepsOf r * Nat.pow 10 (-e).toNat
  let den := unit * Nat.pow 10 e.toNat
  let low : Decimal := ⟨num / den, e⟩
  let high : Decimal := ⟨num / den + 1, e⟩
  match roundsTo r low, roundsTo r high with
  | true, true => some ⟨divHalfEven num den, e⟩
  | true, false => some low
  | false, true => some high
  | false, false => none

/-- `c * 10 ^ e` without trailing zeros in the coefficient. -/
def stripped (c : Nat) (e : Int) : Decimal :=
  if c ≠ 0 ∧ c % 10 = 0 then stripped (c / 10) (e + 1) else ⟨c, e⟩
termination_by c
decreasing_by omega

/-- The shortest decimal that reads back as the magnitude of rank `r`. Seventeen digits suffice. -/
def shortest (r : Nat) : Decimal :=
  if r = 0 then ⟨0, 0⟩
  else
    match (List.range 17).findSome? fun i ↦ gridNeighbour? r (i + 1) with
    | some d => stripped d.coefficient d.exponent
    | none => ⟨0, 0⟩

end Binary64

end Statechart
