import Statechart.Action
import Statechart.Event

/-!
# Transitions

An outgoing transition of a state, with its targets given by id.
-/

namespace Statechart

/-- A transition that is declared on exactly one state. -/
structure Transition where
  /-- The id of the state that declares it. -/
  source : String
  /-- The event that triggers it. -/
  event : String
  /-- The ids of the target states; none if it stays where it is. -/
  targets : List String
  actions : List Action
  guard : Option Guard
  /-- Given for delayed transitions only. -/
  delay : Option Delay
  /-- Does the source stay active while the transition is taken? -/
  internal : Bool
  /-- A state value that the machine must be in. -/
  inState : Option String
  description : Option String
  metadata : Option Json
deriving BEq

namespace Transition

/-- The transition on `event` without targets, guard and actions. -/
def of (source event : String) : Transition where
  source := source
  event := event
  targets := []
  actions := []
  guard := none
  delay := none
  internal := false
  inState := none
  description := none
  metadata := none

/-- The targets as absolute references. -/
def targetRefs (t : Transition) : List String := t.targets.map Reference.absolute

end Transition

end Statechart
