import Statechart.Generate.Laws

/-!
# Samples

Runs of draws from one seed, with the count of broken laws and the kinds of things that turned up.
-/

namespace Statechart

/-- What came of a run of draws. -/
structure Sample where
  /-- How often each law was broken. -/
  broken : List (String × Nat)
  /-- What turned up, in ascending order. -/
  seen : List String

namespace Sample

/-- The texts in ascending order, each once. -/
def sorted (xs : List String) : List String :=
  (Json.sortMembers ((distinct xs).map fun x ↦ (x, ()))).map Prod.fst

/-- A run of `cases` draws. -/
def of {α : Type} (seed : UInt64) (cases : Nat) (draw : Seeded α) : List α :=
  ((Seeded.times draw cases).run seed).1

/-- The laws of the counts, none of them broken: every law is reported, even if nothing is drawn. -/
def unbroken (counts : List LawCount) : List LawCount := counts.map fun c ↦ { c with broken := 0 }

/-- A trial to name laws by. -/
def someTrial : Trial := ⟨.leaf .atomic "a", 0, 0⟩

/-- A sample of names. -/
def names (style : Laws.NameStyle) (seed : UInt64) (cases : Nat) : Sample :=
  let drawn := of seed cases style.draw
  ⟨LawCount.total (Laws.names style drawn), sorted (Laws.seenInNames drawn)⟩

/-- A sample of shapes, of machines or of any states. -/
def shapes (isRoot : Bool) (seed : UInt64) (cases : Nat) : Sample :=
  let drawn := of seed cases (if isRoot then Draw.machineShape else Draw.stateShape)
  ⟨LawCount.total
      (unbroken (Laws.shape isRoot someTrial.shape) ++ drawn.flatMap (Laws.shape isRoot)),
    sorted (drawn.flatMap fun s ↦ distinct (Laws.seenInShape s))⟩

/-- A sample of machines. -/
def machines (actions : List Action) (seed : UInt64) (cases : Nat) : Sample :=
  let drawn := (of seed cases Trial.draw).map Trial.machine
  ⟨LawCount.total
      (unbroken (Laws.machine actions someTrial.machine) ++ drawn.flatMap (Laws.machine actions)),
    sorted (drawn.flatMap fun g ↦ distinct (Laws.seenInMachine g))⟩

/-- A sample of machines that are made simpler step by step. -/
def simplifications (steps : Nat) (seed : UInt64) (cases : Nat) : Sample :=
  let first := of seed cases Trial.draw
  let second := of seed cases Trial.draw
  ⟨LawCount.total
      (unbroken (Laws.simplifying 0 someTrial someTrial)
        ++ (first.zip second).flatMap fun (t, u) ↦ Laws.simplifying steps t u),
    []⟩

end Sample

end Statechart
