import Statechart.Config
import Statechart.Transition.Category

/-!
# Configs of machines

Every machine as a config in the long form: explicit types and ids, absolute references, and no
shorthand. Transitions are grouped by what triggers them, and each group keeps their order.
-/

namespace Statechart

/-- A transition in structured form, with its event. Whether it is internal is said only if it is
not what the targets alone suggest. -/
def Transition.toConfig (t : Transition) : TransitionConfig where
  event := some t.event
  targets := t.targetRefs
  actions := t.actions
  guard := t.guard
  delay := t.delay
  internal := if t.internal == t.targets.isEmpty then none else some t.internal
  inState := t.inState
  description := t.description
  metadata := t.metadata

/-- An invocation as a config. Its transitions are declared by the state. -/
def Invocation.toConfig (i : Invocation) : InvocationConfig where
  id := some i.id
  source := i.source
  autoForward := i.autoForward
  metadata := i.metadata

namespace State

/-- Declare a transition of the state `id`: after its delay if its event is that of the delay,
without an event if it needs none, and under its event otherwise. -/
def declare (id : String) (f : ConfigFacets) (t : Transition) : ConfigFacets :=
  let c := { t.toConfig with event := none }
  match t.delay with
  | some delay =>
    if t.event = Event.after delay id then
      { f with after := Keyed.push delay.key { c with delay := none } f.after }
    else { f with on := Keyed.push t.event c f.on }
  | none =>
    if t.isAlways then { f with always := f.always ++ [c] }
    else { f with on := Keyed.push t.event c f.on }

/-- What the config of a state says of the state alone, its transitions apart. -/
def bareConfig (f : Facets) (k : StateKind State) : ConfigFacets where
  type := some k.type
  id := some f.id
  initial := match k with
    | .compound initial _ => some initial
    | _ => none
  invocations := f.invocations.map Invocation.toConfig
  entry := f.entry
  exit := f.exit
  tags := f.tags
  metadata := f.metadata
  description := f.description
  history := match k with
    | .history kind => some kind
    | _ => none
  doneData := match k with
    | .final doneData => doneData
    | _ => none

/-- What the config of a state says of the state alone. -/
def ownConfig (f : Facets) (k : StateKind State) : ConfigFacets :=
  f.transitions.foldl (declare f.id) (bareConfig f k)

mutual

/-- The config of a state and all below it. -/
def toConfig : State → StateConfig
  | ⟨f, k⟩ => ⟨ownConfig f k, childConfigs k⟩

/-- The configs of the children of a state of this kind. -/
def childConfigs : StateKind State → List (String × StateConfig)
  | .compound _ states => configsInto [] states
  | .parallel states => configsInto [] states
  | _ => []

/-- The configs of the states under their keys, put after those that are there already. -/
def configsInto (kept : List (String × StateConfig)) : List State → List (String × StateConfig)
  | [] => kept
  | ⟨f, k⟩ :: ss => configsInto (Keyed.put f.key (toConfig ⟨f, k⟩) kept) ss

end

end State

/-- The config of a machine. -/
def Machine.toConfig (m : Machine) : MachineConfig := ⟨m.root.toConfig, m.context⟩

end Statechart
