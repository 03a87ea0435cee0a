import Statechart.Keyed
import Statechart.State

/-!
# Machine configs

The form in which machines are written by hand: states nested under their keys, transitions grouped
by what triggers them, targets as references. Every part may be left out. The maps of a config
(`states`, `on`, `after`) are keyed lists in the order of declaration.

A `TransitionConfig` is also the structured form in which a transition is edited.
-/

namespace Statechart

/-- A transition in structured form. Inside a map the event comes from the key and `event` is left
out. -/
structure TransitionConfig where
  event : Option String := none
  /-- References to the target states. -/
  targets : List String := []
  actions : List Action := []
  guard : Option Guard := none
  delay : Option Delay := none
  internal : Option Bool := none
  inState : Option String := none
  description : Option String := none
  metadata : Option Json := none
deriving BEq

/-- A transition to the given references. -/
def TransitionConfig.to (targets : List String) : TransitionConfig := { targets }

/-- The transition with its event given. -/
def TransitionConfig.onEvent (t : TransitionConfig) (event : String) : TransitionConfig :=
  { t with event := some event }

/-- A service that a state invokes, with the transitions for its completion and its failure. -/
structure InvocationConfig where
  id : Option String := none
  source : String
  autoForward : Bool := false
  onDone : List TransitionConfig := []
  onError : List TransitionConfig := []
  metadata : Option Json := none
deriving BEq

namespace InvocationConfig

/-- The id of an invocation that is the `index`th of the state `stateId`. One that does not name an
id is known by its position. -/
def idAt (stateId : String) (index : Nat) (i : InvocationConfig) : String :=
  i.id.getD (stateId ++ ":invocation[" ++ Decimal.text index ++ "]")

/-- The invocations of the state `stateId` from the `index`th on, without their transitions. -/
def toInvocations (stateId : String) (index : Nat) : List InvocationConfig → List Invocation
  | [] => []
  | i :: is =>
    ⟨i.idAt stateId index, i.source, i.autoForward, i.metadata⟩
      :: toInvocations stateId (index + 1) is

end InvocationConfig

/-- What the config of a state says of the state alone. -/
structure ConfigFacets where
  type : Option StateType := none
  id : Option String := none
  initial : Option String := none
  /-- Transitions by event. -/
  on : List (String × List TransitionConfig) := []
  always : List TransitionConfig := []
  /-- Transitions by the key of their delay. -/
  after : List (String × List TransitionConfig) := []
  onDone : List TransitionConfig := []
  invocations : List InvocationConfig := []
  entry : List Action := []
  exit : List Action := []
  tags : List String := []
  metadata : Option Json := none
  description : Option String := none
  history : Option HistoryKind := none
  /-- Never written. -/
  doneData : Option DoneData := none

/-- The config of a state and of the states below it. -/
structure StateConfig extends ConfigFacets where
  states : List (String × StateConfig) := []

namespace StateConfig

/-- The config that says nothing. -/
def empty : StateConfig := {}

instance : Inhabited StateConfig := ⟨empty⟩

/-- The config with its type given. -/
def withType (c : StateConfig) (type : StateType) : StateConfig := { c with type := some type }

/-- The config with its id given. -/
def withId (c : StateConfig) (id : String) : StateConfig := { c with id := some id }

/-- The config with the key of its initial child given. -/
def withInitial (c : StateConfig) (key : String) : StateConfig := { c with initial := some key }

/-- The config with `child` declared under `key`. -/
def withState (c : StateConfig) (key : String) (child : StateConfig) : StateConfig :=
  { c with states := Keyed.put key child c.states }

/-- The config with one more transition on `event`. -/
def withOn (c : StateConfig) (event : String) (t : TransitionConfig) : StateConfig :=
  { c with on := Keyed.push event t c.on }

/-- The config with the mapper of a final state given or taken away. -/
def withDoneData (c : StateConfig) (doneData : Option DoneData) : StateConfig := { c with doneData }

end StateConfig

/-- The config of a machine: that of its root state, and the context. -/
structure MachineConfig where
  root : StateConfig
  context : Json

end Statechart
