import Statechart.Text.Decimal

/-!
# Name pools

A pool keeps the ids that are taken while one machine is built. A name that is free is taken as it
is; a name that is taken gets a number, the count of taken ids or the first one after it that makes
the id free.
-/

namespace Statechart

/-- The ids that are taken. -/
structure NamePool where
  taken : List String

namespace NamePool

/-- The pool in which no id is taken. -/
def empty : NamePool := ⟨[]⟩

/-- How many ids are taken. -/
def size (pool : NamePool) : Nat := pool.taken.length

/-- Is no id taken? -/
def isEmpty (pool : NamePool) : Bool := pool.size == 0

/-- The name with a number after it. -/
def numbered (name : String) (n : Nat) : String := name ++ Decimal.text n

/-- The first number from `n` on that makes the name an id that is not in `taken`. An id that is
tried in vain need not be looked for again, so it is left out from there on. -/
def firstFree (taken : List String) (name : String) (n : Nat) : Nat :=
  if _h : numbered name n ∈ taken then firstFree (taken.erase (numbered name n)) name (n + 1) else n
termination_by taken.length
decreasing_by
  rw [List.length_erase_of_mem _h]
  exact Nat.sub_lt (List.length_pos_of_mem _h) Nat.one_pos

/-- The id for a name. -/
def freshId (pool : NamePool) (name : String) : String :=
  if pool.taken.contains name then numbered name (firstFree pool.taken name pool.size) else name

/-- Take an id for a name. -/
def claim (pool : NamePool) (name : String) : String × NamePool :=
  let id := pool.freshId name
  (id, ⟨id :: pool.taken⟩)

end NamePool

end Statechart
