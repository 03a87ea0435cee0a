import Statechart.Revision.Tree

/-!
# Ready-made mappers

Mappers that act on the transitions of every state: add actions to each, add transitions, or keep
only some.
-/

namespace Statechart

namespace Mapper

variable {σ : Type}

/-- A mapper that decides from the state and the states above it alone. -/
def pure (decide : PendingState → List State → PendingState) : Mapper σ :=
  fun data p path ↦ (decide p path, data)

/-- The mapper that changes nothing. -/
def identity : Mapper σ := pure fun p _ ↦ p

/-- Add `actions` after the actions of every transition. -/
def appendActions (actions : List Action) : Mapper σ :=
  pure fun p _ ↦
    (Edit.transformTransitions fun t ↦ { t with actions := t.actions ++ actions }).apply p

/-- Add the transitions that `make` gives for each state, which it sees before they are added. -/
def appendTransitions (make : σ → PendingState → List State → List TransitionConfig × σ) :
    Mapper σ :=
  fun data p path ↦
    let (added, data) := make data p path
    (p.edit (added.map .appendTransition), data)

/-- The items for which `keep` says so, asked from the first to the last. -/
def filterWith {α : Type} (keep : σ → α → Bool × σ) (data : σ) : List α → List α × σ
  | [] => ([], data)
  | x :: xs =>
    let (kept, data) := keep data x
    let (rest, data) := filterWith keep data xs
    (if kept then x :: rest else rest, data)

/-- Keep only the transitions for which `keep` says so. -/
def filterTransitions (keep : σ → TransitionConfig → Bool × σ) : Mapper σ :=
  fun data p _ ↦
    let (kept, data) := filterWith keep data p.currentTransitions
    ((Edit.setTransitions kept).apply p, data)

end Mapper

end Statechart
