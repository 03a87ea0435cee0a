import Statechart.Config.LongForm

/-!
# Pending states

A `PendingState` is a state that is about to be revised: the state as it is, without its children,
and the changes decided on so far. Its read view (`base`, `childKeys`) never changes; the
`current` functions say what each facet stands at. A facet that no edit has touched is not written
anew, so it comes out exactly as it was.

Within a chain of edits the last one to write a facet wins, and appending adds to what the facet
holds by then.
-/

namespace Statechart

/-- The id that a structured target stands for: that of an absolute reference, or else the text. -/
def TransitionConfig.targetId (target : String) : String :=
  (Reference.absoluteId? target).getD target

/-- A structured transition as a transition of the state `source`. -/
def Transition.ofConfig (source : String) (c : TransitionConfig) : Transition where
  source := source
  event := c.event.getD ""
  targets := c.targets.map TransitionConfig.targetId
  actions := c.actions
  guard := c.guard
  delay := c.delay
  internal := c.internal.getD c.targets.isEmpty
  inState := c.inState
  description := c.description
  metadata := c.metadata

/-- A state that is about to be revised, with the changes decided on so far. -/
structure PendingState where
  /-- The state as it was, without its children. -/
  base : State
  /-- The keys of its children, in the order of their declaration. -/
  childKeys : List String
  transitions : Option (List TransitionConfig) := none
  invocations : Option (List InvocationConfig) := none
  entry : Option (List Action) := none
  exit : Option (List Action) := none
  initial : Option String := none
  tags : Option (List String) := none
  metadata : Option (Option Json) := none
  description : Option (Option String) := none
  history : Option HistoryKind := none
  doneData : Option DoneData := none
  declared : Option (List (String × StateConfig)) := none

namespace PendingState

/-- The state with no change decided on. -/
def of (s : State) : PendingState where
  base := s.bare
  childKeys := s.children.map (·.key)

variable (p : PendingState)

/-! ### What the facets stand at -/

/-- The transitions in structured form, with absolute references. -/
def currentTransitions : List TransitionConfig :=
  p.transitions.getD (p.base.transitions.map Transition.toConfig)

/-- The invocations in structured form. -/
def currentInvocations : List InvocationConfig :=
  p.invocations.getD (p.base.invocations.map Invocation.toConfig)

/-- The actions on entry. -/
def currentEntry : List Action := p.entry.getD p.base.entry

/-- The actions on exit. -/
def currentExit : List Action := p.exit.getD p.base.exit

/-! ### The finished state -/

/-- A revised state, and what is still needed to give it its children. -/
structure Settled where
  /-- The state with every change made, without children. -/
  state : State
  /-- The key to start at, if the state becomes compound. -/
  initial : Option String
  /-- Children that are declared in addition. -/
  declared : Option (List (String × StateConfig))

/-- The structured transitions of one outcome of an invocation. The outcome is their event, whatever
they say themselves. -/
def handlers (id event : String) (ts : List TransitionConfig) : List Transition :=
  ts.map fun t ↦ { Transition.ofConfig id t with event := event }

/-- The transitions of the invocations from the `index`th on. -/
def invocationTransitions (id : String) (index : Nat) : List InvocationConfig → List Transition
  | [] => []
  | i :: is =>
    handlers id (Event.doneInvoke (i.idAt id index)) i.onDone
      ++ handlers id (Event.errorPlatform (i.idAt id index)) i.onError
      ++ invocationTransitions id (index + 1) is

/-- The kind of the finished state. A change that does not apply to the kind is dropped. -/
def settledKind : StateKind State :=
  match p.base.kind with
  | .compound initial states => .compound (p.initial.getD initial) states
  | .history kind => .history (p.history.getD kind)
  | .final doneData => .final (p.doneData <|> doneData)
  | kind => kind

/-- The transitions of the finished state: its own, then those of its invocations if they were
written anew. -/
def settledTransitions : List Transition :=
  let id := p.base.id
  let own := match p.transitions with
    | some ts => ts.map (Transition.ofConfig id)
    | none => p.base.transitions
  match p.invocations with
  | some is => own ++ invocationTransitions id 0 is
  | none => own

/-- Make every change that was decided on. -/
def settle : Settled where
  state := ⟨{
    id := p.base.id
    key := p.base.key
    entry := p.currentEntry
    exit := p.currentExit
    invocations := match p.invocations with
      | some is => InvocationConfig.toInvocations p.base.id 0 is
      | none => p.base.invocations
    transitions := p.settledTransitions
    tags := p.tags.getD p.base.tags
    metadata := p.metadata.getD p.base.metadata
    description := p.description.getD p.base.description }, p.settledKind⟩
  initial := p.initial
  declared := p.declared

end PendingState

end Statechart
