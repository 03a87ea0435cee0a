/-!
# Random draws

Draws from a seed. Every draw takes one step of a generator of 64-bit words, so the same seed gives
the same values again.
-/

namespace Statechart

/-- A value that depends on random draws. -/
abbrev Seeded (α : Type) := StateM UInt64 α

namespace Seeded

variable {α : Type}

/-- The word that belongs to a state of the generator. -/
def mix (z : UInt64) : UInt64 :=
  let z := (z ^^^ (z >>> 30)) * 0xBF58476D1CE4E5B9
  let z := (z ^^^ (z >>> 27)) * 0x94D049BB133111EB
  z ^^^ (z >>> 31)

/-- A word. -/
def word : Seeded UInt64 := fun seed ↦
  let seed := seed + 0x9E3779B97F4A7C15
  (mix seed, seed)

/-- A number below `n`, or zero if `n` is zero. -/
def below (n : Nat) : Seeded Nat := do
  let w ← word
  return w.toNat % n

/-- A number from `low` to `high`. -/
def between (low high : Nat) : Seeded Nat := do
  let k ← below (high + 1 - low)
  return low + k

/-- True in one of `n` cases. -/
def oneIn (n : Nat) : Seeded Bool := do
  let k ← below n
  return k == 0

/-- One of the items, each as likely as any other. -/
def pick (fallback : α) (xs : List α) : Seeded α := do
  let k ← below xs.length
  return xs.getD k fallback

/-- A list of `n` draws. -/
def times (draw : Seeded α) : Nat → Seeded (List α)
  | 0 => return []
  | n + 1 => do
    let x ← draw
    let xs ← times draw n
    return x :: xs

/-- A list of at least `low` and at most `high` draws. -/
def list (low high : Nat) (draw : Seeded α) : Seeded (List α) := do
  let n ← between low high
  times draw n

/-- A draw, or nothing. -/
def option (draw : Seeded α) : Seeded (Option α) := do
  if ← oneIn 2 then return none
  else
    let x ← draw
    return some x

end Seeded

end Statechart
