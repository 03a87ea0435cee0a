import Statechart.Revision.Pending

/-!
# Edits

The changes that can be decided on for a pending state. `Edit.apply` makes one of them, and
`PendingState.edit` a chain of them from the left to the right. Each edit writes one facet and
leaves all others as they are.
-/

namespace Statechart

/-- A change to one facet of a pending state. -/
inductive Edit where
  | clearTransitions
  /-- Without an event the transition needs none. -/
  | appendTransition (t : TransitionConfig)
  | transformTransitions (f : TransitionConfig → TransitionConfig)
  | setTransitions (ts : List TransitionConfig)
  | clearInvocations
  /-- The transitions of the invocation become transitions of the state. -/
  | appendInvocation (i : InvocationConfig)
  | transformInvocations (f : InvocationConfig → InvocationConfig)
  | setInvocations (is : List InvocationConfig)
  | clearEntry
  | appendEntry (a : Action)
  | transformEntry (f : Action → Action)
  | setEntry (as : List Action)
  | clearExit
  | appendExit (a : Action)
  | transformExit (f : Action → Action)
  | setExit (as : List Action)
  /-- Counts for compound states, and for atomic ones that get children. -/
  | setInitial (key : String)
  | setTags (tags : List String)
  /-- `null` takes the metadata away. -/
  | setMetadata (value : Json)
  | setDescription (text : String)
  | clearDescription
  /-- Counts for history states. -/
  | setHistory (kind : HistoryKind)
  /-- Counts for final states. -/
  | setDoneData (doneData : DoneData)
  /-- Declare children. They come after the children that are there; one with the key of such a
  child takes its place. -/
  | setChildren (states : List (String × StateConfig))

/-- Decide on a change. -/
def Edit.apply (p : PendingState) : Edit → PendingState
  | .clearTransitions => { p with transitions := some [] }
  | .appendTransition t => { p with transitions := some (p.currentTransitions ++ [t]) }
  | .transformTransitions f => { p with transitions := some (p.currentTransitions.map f) }
  | .setTransitions ts => { p with transitions := some ts }
  | .clearInvocations => { p with invocations := some [] }
  | .appendInvocation i => { p with invocations := some (p.currentInvocations ++ [i]) }
  | .transformInvocations f => { p with invocations := some (p.currentInvocations.map f) }
  | .setInvocations is => { p with invocations := some is }
  | .clearEntry => { p with entry := some [] }
  | .appendEntry a => { p with entry := some (p.currentEntry ++ [a]) }
  | .transformEntry f => { p with entry := some (p.currentEntry.map f) }
  | .setEntry as => { p with entry := some as }
  | .clearExit => { p with exit := some [] }
  | .appendExit a => { p with exit := some (p.currentExit ++ [a]) }
  | .transformExit f => { p with exit := some (p.currentExit.map f) }
  | .setExit as => { p with exit := some as }
  | .setInitial key => { p with initial := some key }
  | .setTags tags => { p with tags := some tags }
  | .setMetadata value => { p with metadata := some (if value.isNull then none else some value) }
  | .setDescription text => { p with description := some (some text) }
  | .clearDescription => { p with description := some none }
  | .setHistory kind => { p with history := some kind }
  | .setDoneData doneData => { p with doneData := some doneData }
  | .setChildren states => { p with declared := some (Keyed.ofEntries states) }

/-- Decide on the changes of a chain, the first one first. -/
def PendingState.edit (p : PendingState) (edits : List Edit) : PendingState :=
  edits.foldl Edit.apply p

/-- No edit touches the read view. -/
@[simp] theorem Edit.base_apply (p : PendingState) (e : Edit) :
    (e.apply p).base = p.base := by cases e <;> rfl

/-- No edit touches the keys of the children. -/
@[simp] theorem Edit.childKeys_apply (p : PendingState) (e : Edit) :
    (e.apply p).childKeys = p.childKeys := by cases e <;> rfl

end Statechart
