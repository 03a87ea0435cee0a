import Statechart.Generate.Assembly
import Statechart.Generate.Name
import Statechart.Generate.Seeded

/-!
# Drawing machines

The shape of a machine is drawn first. Once it is laid out, the updates of every state are drawn,
with targets among the states that there are. What a state may get depends on its kind: a root
never completes, so it has no transition for its completion; every compound state below it has one;
a final state has invocations and done data alone, and a history state has nothing.
-/

namespace Statechart

namespace Draw

open Seeded

/-! ### Names -/

/-- Ranges of printable characters outside ASCII. -/
def printable : List (Nat × Nat) :=
  [(0xA1, 0xAC), (0xAE, 0xFF), (0x100, 0x17F), (0x3B1, 0x3C9), (0x410, 0x44F), (0x5D0, 0x5EA),
    (0x2190, 0x21FF), (0x3041, 0x3096), (0x4E00, 0x9FA5), (0xAC00, 0xD7A3), (0x1F600, 0x1F64F)]

/-- A printable ASCII character. -/
def asciiChar : Seeded Char := do
  let n ← between 0x20 0x7E
  return Char.ofNat n

/-- A printable character. -/
def anyChar : Seeded Char := do
  if ← oneIn 2 then asciiChar
  else
    let (low, high) ← pick (0x20, 0x7E) printable
    let n ← between low high
    return Char.ofNat n

/-- A text of `low` to `high` printable characters. Half of the texts are ASCII. -/
def printableText (low high : Nat) : Seeded String := do
  let char := if ← oneIn 2 then asciiChar else anyChar
  let cs ← list low high char
  return String.ofList cs

/-- The text with a letter for its first character. -/
def withLetter (s : String) : String := String.ofList ('a' :: s.toList.drop 1)

/-- The text, or the text with a letter for its first character if `ok` refuses it. -/
def repaired (ok : String → Bool) (s : String) : String := if ok s then s else withLetter s

/-- The name of a state. -/
def stateName : Seeded String := return repaired Name.isState (← printableText 1 8)

/-- The name of an event. -/
def eventName : Seeded String := return repaired Name.isEvent (← printableText 1 8)

/-- The name of an action, a guard, a service or an invocation. It may be empty. -/
def plainName : Seeded String := printableText 0 8

/-! ### Shapes -/

/-- How many levels of compound and parallel states there may be. -/
def levels : Nat := 3

/-- The most children of a compound state. -/
def maxChildren : Nat := 5

/-- The most children of a parallel state. -/
def maxRegions : Nat := 4

/-- A leaf of any kind. -/
def leaf : Seeded Shape := do
  let type ← pick .atomic [StateType.atomic, .final, .history]
  let name ← stateName
  return .leaf type name

/-- A compound state, with its children drawn by `inner`. -/
def compound (inner : Seeded Shape) : Seeded Shape := do
  let name ← stateName
  let children ← list 1 maxChildren inner
  return ⟨.compound, name, children⟩

/-- A state of any kind with at most `n` levels of compound and parallel states. The children of a
parallel state are compound. -/
def shape : Nat → Seeded Shape
  | 0 => leaf
  | n + 1 => do
    let inner := shape n
    match ← below 4 with
    | 0 => compound inner
    | 1 =>
      let name ← stateName
      let regions ← list 1 maxRegions (compound inner)
      return ⟨.parallel, name, regions⟩
    | _ => leaf

/-- A state of any kind. -/
def stateShape : Seeded Shape := do
  if ← oneIn 3 then leaf else shape levels

/-- A root: no final and no history state. -/
def asRoot (s : Shape) : Shape :=
  match s.type with
  | .final | .history => { s with type := .atomic }
  | _ => s

/-- The root of a machine. -/
def machineShape : Seeded Shape := return asRoot (← stateShape)

/-! ### Updates -/

/-- Delays in milliseconds are below this. -/
def delayBound : Nat := 10000

/-- A delay. A name must not read as a number. -/
def delay : Seeded Delay := do
  if ← oneIn 2 then
    let ms ← below delayBound
    return .millis (UInt64.ofNat ms)
  else
    let name ← printableText 1 8
    return .named (repaired (fun s ↦ (Delay.word? s).isNone) name)

/-- The most actions of a transition. -/
def maxActions : Nat := 3

/-- The most updates of a state beyond those that its kind demands. -/
def maxUpdates : Nat := 3

/-- A transition with its target, if it has one, among `ids`. -/
def transition (ids : List String) : Seeded TransitionDraft := do
  let stay ← oneIn 2
  let id ← pick "" ids
  let actions ← list 0 maxActions plainName
  let guard ← option plainName
  let due ← option delay
  return {
    target := if stay || ids.isEmpty then none else some id
    actions := actions
    guard := guard
    delay := due }

/-- An invocation. -/
def invocation (ids : List String) : Seeded InvocationDraft := do
  let id ← plainName
  let source ← plainName
  let onDone ← option (transition ids)
  let onError ← option (transition ids)
  return { id, source, onDone, onError }

/-- A field of done data. -/
def doneField : Seeded (String × Json) := do
  let name ← plainName
  let value ← match ← below 4 with
    | 0 => pure Json.null
    | 1 => do
      let b ← oneIn 2
      pure (Json.bool b)
    | 2 => do
      let w ← word
      pure (Json.ofInt ((w.toNat : Int) - Nat.pow 2 63))
    | _ => do
      let s ← plainName
      pure (Json.text s)
  return (name, value)

/-- Done data: an object of at most three fields. -/
def doneData : Seeded Json := do
  let fields ← list 0 3 doneField
  return Json.ofMembers fields

/-- An event, eventless or delayed transition, or an invocation. -/
def standardUpdate (ids : List String) : Seeded Update := do
  match ← below 4 with
  | 0 =>
    let event ← eventName
    let t ← transition ids
    return .on event t
  | 1 =>
    let t ← transition ids
    return .always t
  | 2 =>
    let due ← delay
    let t ← transition ids
    return .after { t with delay := some due }
  | _ =>
    let i ← option (invocation ids)
    return .invoke i

/-- The updates of one state: those that may be left out, and those that its kind demands. -/
structure StateUpdates where
  free : List Update
  demanded : List Update

/-- The updates of a state of the given kind. -/
def updatesFor (type : StateType) (isRoot : Bool) (ids : List String) : Seeded StateUpdates := do
  match isRoot, type with
  | true, _ =>
    let free ← list 0 maxUpdates (standardUpdate ids)
    let first ← word
    return ⟨free, [.initial first.toNat]⟩
  | false, .atomic =>
    let free ← list 0 maxUpdates (standardUpdate ids)
    return ⟨free, []⟩
  | false, .compound =>
    let free ← list 0 maxUpdates (standardUpdate ids)
    let done ← transition ids
    let first ← word
    return ⟨free, [.onDone done, .initial first.toNat]⟩
  | false, .parallel =>
    let free ← list 0 maxUpdates do
      if ← oneIn 2 then standardUpdate ids
      else
        let t ← transition ids
        return .onDone t
    return ⟨free, []⟩
  | false, .final =>
    let data ← option doneData
    let free ← list 0 maxUpdates do
      let i ← option (invocation ids)
      return .invoke i
    return ⟨free, (data.map .doneData).toList⟩
  | false, .history => return ⟨[], []⟩

/-- The updates of the states of a layout, in their order. -/
def updatesForAll (ids : List String) (isRoot : Bool) :
    List (String × StateType) → Seeded (List StateUpdates)
  | [] => return []
  | (_, type) :: rest => do
    let us ← updatesFor type isRoot ids
    let more ← updatesForAll ids false rest
    return us :: more

end Draw

/-! ### Trials -/

/-- A machine that was drawn, in a form that can be made simpler: its shape, the seed from which the
updates of its states are drawn, and how many of those that may be left out are kept. -/
structure Trial where
  shape : Shape
  seed : UInt64
  /-- At most this many free updates of each state are kept. -/
  kept : Nat

namespace Trial

/-- Draw a machine. -/
def draw : Seeded Trial := do
  let shape ← Draw.machineShape
  let seed ← Seeded.word
  return ⟨shape, seed, Draw.maxUpdates⟩

/-- The machine. -/
def machine (t : Trial) : GeneratedMachine :=
  let layout := t.shape.layout
  let (updates, _) := (Draw.updatesForAll layout.properIds true layout.preorder).run t.seed
  Assembly.build layout (updates.map fun us ↦ us.free.take t.kept ++ us.demanded)

end Trial

namespace Shape

/-- A name that is a little simpler, if there is one: the name without its last character. -/
def simplerName? (name : String) : Option String :=
  let cs := name.toList.dropLast
  if cs.isEmpty then none
  else some (Draw.repaired Name.isState (String.ofList cs))

mutual

/-- A shape that is a little simpler, if there is one: one child less, or a simpler child, or else a
leaf in the place of a state with one leaf below it. A region stays compound. -/
def simpler? (region : Bool) : Shape → Option Shape
  | ⟨type, name, children⟩ =>
    match children with
    | [] => (simplerName? name).map fun name ↦ ⟨type, name, []⟩
    | [child] =>
      match simpler? (type == .parallel) child with
      | some child => some ⟨type, name, [child]⟩
      | none => if region then none else some (leaf .atomic name)
    | first :: second :: rest =>
      some ⟨type, name, (first :: second :: rest).dropLast⟩

end

end Shape

/-- A trial that is a little simpler, if there is one. The shape is simplified first, then updates
are left out. -/
def Trial.simpler? (t : Trial) : Option Trial :=
  match t.shape.simpler? false with
  | some shape => some { t with shape }
  | none =>
    match t.kept with
    | 0 => none
    | kept + 1 => some { t with kept }

end Statechart
