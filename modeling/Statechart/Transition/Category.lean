import Statechart.Transition

/-!
# What triggers a transition

Every transition is in one of seven categories. A delay decides first, then the name of the event:
no event, any event, the completion of a state, the completion or failure of an invocation, or
else an event from outside.

`Buckets.collect` sorts any items that carry a transition, so that transitions can be told apart by
what they are paired with.
-/

namespace Statechart

namespace Transition

variable (t : Transition)

/-- Is it delayed? -/
def isDelayed : Bool := t.delay.isSome

/-- Does it need no event? -/
def isAlways : Bool := t.event == Event.always

/-- Does any event trigger it? -/
def isWildcard : Bool := t.event == Event.wildcard

/-- Is it taken when a state completes? -/
def isStateDone : Bool := Text.startsWith Event.doneStateLead t.event

/-- Is it taken when an invocation completes? -/
def isInvocationDone : Bool := Text.startsWith Event.doneInvokeLead t.event

/-- Is it taken when an invocation fails? -/
def isInvocationError : Bool := Text.startsWith Event.errorPlatformLead t.event

/-- Is it taken on an event from outside that it names? -/
def isNamedEvent : Bool :=
  !(t.isAlways || t.isWildcard || t.isStateDone || t.isInvocationDone || t.isInvocationError)

end Transition

/-- What triggers a transition. -/
inductive Category where
  | eventOccurred
  | stateDone (stateId : String)
  | invocationDone (invocationId : String)
  | invocationError (invocationId : String)
  | delayDone
  | always
  | wildcard
deriving DecidableEq

/-- The category of a transition. -/
def Transition.category (t : Transition) : Category :=
  if t.isDelayed then .delayDone
  else if t.isAlways then .always
  else if t.isWildcard then .wildcard
  else
    match Text.after? Event.doneStateLead t.event with
    | some id => .stateDone id
    | none =>
      match Text.after? Event.doneInvokeLead t.event with
      | some id => .invocationDone id
      | none =>
        match Text.after? Event.errorPlatformLead t.event with
        | some id => .invocationError id
        | none => .eventOccurred

/-- Items sorted by the categories of their transitions, in each bucket in the order in which they
came. Where the category carries an id, the item is kept with it. -/
structure Buckets (α : Type) where
  eventOccurred : List α
  stateDone : List (α × String)
  invocationDone : List (α × String)
  invocationError : List (α × String)
  delayDone : List α
  always : List α
  wildcard : List α

namespace Buckets

variable {α : Type}

/-- Seven empty buckets. -/
def empty : Buckets α := ⟨[], [], [], [], [], [], []⟩

/-- Add an item at the end of the bucket of its category. -/
def add (b : Buckets α) (item : α) : Category → Buckets α
  | .eventOccurred => { b with eventOccurred := b.eventOccurred ++ [item] }
  | .stateDone id => { b with stateDone := b.stateDone ++ [(item, id)] }
  | .invocationDone id => { b with invocationDone := b.invocationDone ++ [(item, id)] }
  | .invocationError id => { b with invocationError := b.invocationError ++ [(item, id)] }
  | .delayDone => { b with delayDone := b.delayDone ++ [item] }
  | .always => { b with always := b.always ++ [item] }
  | .wildcard => { b with wildcard := b.wildcard ++ [item] }

/-- Sort items by the categories of the transitions that they carry, in one pass. -/
def collect (transition : α → Transition) (items : List α) : Buckets α :=
  items.foldl (fun b item ↦ b.add item (transition item).category) empty

/-- How many items there are. -/
def size (b : Buckets α) : Nat :=
  b.eventOccurred.length + b.stateDone.length + b.invocationDone.length
    + b.invocationError.length + b.delayDone.length + b.always.length + b.wildcard.length

/-- Are all buckets empty? -/
def isEmpty (b : Buckets α) : Bool := b.size == 0

/-- The items, bucket by bucket. -/
def toList (b : Buckets α) : List α :=
  b.eventOccurred ++ b.stateDone.map Prod.fst ++ b.invocationDone.map Prod.fst
    ++ b.invocationError.map Prod.fst ++ b.delayDone ++ b.always ++ b.wildcard

end Buckets

/-- Transitions sorted by their categories. -/
def Buckets.ofTransitions (ts : List Transition) : Buckets Transition := collect id ts

end Statechart
