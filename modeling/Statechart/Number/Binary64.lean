/-!
# Finite doubles

A finite double is a sign and the *rank* of its magnitude: its place in the ascending list of all
finite magnitudes, zero first. Equal ranks are equal magnitudes, so equality of doubles is equality
of data, and rounding up past a power of two is adding one to the rank.

All arithmetic is exact arithmetic on natural numbers followed by one rounding
(`Binary64.nearestRank`), a half going to the even neighbour. Results beyond the largest finite
double are `none`.
-/

namespace Statechart

/-- A finite double-precision number. The rank is below that of infinity. -/
structure Binary64 where
  /-- Is the sign bit set? Zero has both signs. -/
  negative : Bool
  /-- The place of the magnitude in the ascending list of finite magnitudes. -/
  rank : Nat
  /-- There are `2047 * 2 ^ 52` finite magnitudes. -/
  rank_lt : rank < 2047 * Nat.pow 2 52
deriving DecidableEq

namespace Binary64

/-- The magnitude of rank `r` is `significandOf r * 2 ^ shiftOf r` steps of `2 ^ -1074`. -/
def significandOf (r : Nat) : Nat :=
  if r < Nat.pow 2 52 then r else Nat.pow 2 52 + r % Nat.pow 2 52

/-- The binary exponent of the magnitude of rank `r`, counted from the smallest one. -/
def shiftOf (r : Nat) : Nat := r / Nat.pow 2 52 - 1

/-- The magnitude of rank `r`, in steps of `2 ^ -1074`. -/
def stepsOf (r : Nat) : Nat := significandOf r * Nat.pow 2 (shiftOf r)

/-- The magnitude of `x`, in steps of `2 ^ -1074`. -/
def steps (x : Binary64) : Nat := stepsOf x.rank

/-- `2 ^ 1074`: the number of steps in one. -/
def unit : Nat := Nat.pow 2 1074

/-- The quotient rounded to the nearest natural number, a half going to the even one. -/
def divHalfEven (n d : Nat) : Nat :=
  let q := n / d
  let r := n % d
  if 2 * r < d then q
  else if d < 2 * r then q + 1
  else q + q % 2

/-- The rank nearest to the magnitude `num / den`. It may lie beyond the finite ones. -/
def nearestRank (num den : Nat) : Nat :=
  let scaled := num * unit
  let shift := Nat.log2 (scaled / den) - 52
  shift * Nat.pow 2 52 + divHalfEven scaled (den * Nat.pow 2 shift)

/-- The double of the given sign and rank, if the rank is finite. -/
def ofRank? (negative : Bool) (r : Nat) : Option Binary64 :=
  if h : r < 2047 * Nat.pow 2 52 then some ⟨negative, r, h⟩ else none

/-- The double nearest to `num / den`. -/
def ofRatio? (num den : Nat) : Option Binary64 := ofRank? false (nearestRank num den)

/-- Positive zero. -/
def zero : Binary64 := ⟨false, 0, by decide⟩

/-- Is `x` a zero of either sign? -/
def isZero (x : Binary64) : Bool := x.rank == 0

/-- `x` with the sign turned. -/
def neg (x : Binary64) : Binary64 := { x with negative := !x.negative }

/-- The product, rounded once. -/
def mul? (x y : Binary64) : Option Binary64 :=
  ofRank? (x.negative != y.negative) (nearestRank (x.steps * y.steps) (unit * unit))

/-- The quotient by a number that is not zero, rounded once. -/
def div? (x y : Binary64) : Option Binary64 :=
  ofRank? (x.negative != y.negative) (nearestRank x.steps y.steps)

/-- The double nearest to `10 ^ e`. -/
def tenPow? (e : Nat) : Option Binary64 := ofRatio? (Nat.pow 10 e) 1

/-- Do `x` and `y` compare as equal numbers? The two zeros do. -/
def sameValue (x y : Binary64) : Bool :=
  x.rank == y.rank && (x.negative == y.negative || x.rank == 0)

end Binary64

end Statechart
