import Statechart.Generate.Shape
import Statechart.Transition.Category

/-!
# Assembling machines

A laid-out shape becomes a machine by updates to its states: each state takes the next list of
updates, parents before children. Everything that a machine is made of by name is kept as it is
used, so that a generated machine comes with the names to expect in it.
-/

namespace Statechart

/-- A transition to be added to a state. -/
structure TransitionDraft where
  target : Option String := none
  actions : List String := []
  guard : Option String := none
  delay : Option Delay := none

/-- An invocation to be added to a state. -/
structure InvocationDraft where
  id : String
  source : String
  onDone : Option TransitionDraft := none
  onError : Option TransitionDraft := none

/-- A change to a state of a laid-out shape. -/
inductive Update where
  | on (event : String) (t : TransitionDraft)
  | always (t : TransitionDraft)
  /-- The event is that of the delay. -/
  | after (t : TransitionDraft)
  | onDone (t : TransitionDraft)
  /-- No invocation changes nothing. -/
  | invoke (i : Option InvocationDraft)
  /-- Start at the child of this number, counted around. -/
  | initial (index : Nat)
  | doneData (value : Json)

/-- The names used so far, in order and with repetitions. -/
structure Names where
  events : List String := []
  actions : List String := []
  guards : List String := []
  sources : List String := []

namespace Names

/-- The names of one transition on `event`. -/
def ofTransition (event : String) (t : TransitionDraft) : Names :=
  ⟨[event], t.actions, t.guard.toList, []⟩

/-- All names of the first, then all of the second. -/
def append (a b : Names) : Names :=
  ⟨a.events ++ b.events, a.actions ++ b.actions, a.guards ++ b.guards, a.sources ++ b.sources⟩

instance : Append Names := ⟨append⟩

end Names

/-- The items without those that stand in `seen` or earlier. -/
def distinctFrom (seen : List String) : List String → List String
  | [] => []
  | x :: xs => if seen.contains x then distinctFrom seen xs else x :: distinctFrom (x :: seen) xs

/-- The items, each where it stands first. -/
def distinct (xs : List String) : List String := distinctFrom [] xs

/-- A machine and the names in it, each once and in the order in which it is first used. -/
structure GeneratedMachine where
  machine : Machine
  /-- The ids of all states but the root. -/
  states : List String
  events : List String
  actions : List String
  guards : List String
  /-- The services that are invoked. -/
  sources : List String

namespace Assembly

/-- What the updates of one state have made of it so far. -/
structure Draft where
  transitions : List Transition := []
  invocations : List Invocation := []
  initial : Option Nat := none
  doneData : Option Json := none
  names : Names := {}

/-- The transition that a draft stands for on the state `source`. -/
def transition (source event : String) (t : TransitionDraft) : Transition :=
  { Transition.of source event with
    targets := t.target.toList
    actions := t.actions.map Action.named
    guard := t.guard.map Guard.named
    delay := t.delay
    internal := t.target.isNone }

/-- Add a transition on `event`. -/
def Draft.add (d : Draft) (source event : String) (t : TransitionDraft) : Draft :=
  { d with
    transitions := d.transitions ++ [transition source event t]
    names := d.names ++ Names.ofTransition event t }

/-- Add a transition on `event`, if there is one. -/
def Draft.addSome (d : Draft) (source event : String) : Option TransitionDraft → Draft
  | some t => d.add source event t
  | none => d

/-- Make one update to the state `id`. -/
def Draft.update (id : String) (d : Draft) : Update → Draft
  | .on event t => d.add id event t
  | .always t => d.add id Event.always t
  | .after t => d.add id ((t.delay.map fun delay ↦ Event.after delay id).getD "") t
  | .onDone t => d.add id (Event.doneState id) t
  | .invoke none => d
  | .invoke (some i) =>
    let d := d.addSome id (Event.doneInvoke i.id) i.onDone
    let d := d.addSome id (Event.errorPlatform i.id) i.onError
    { d with
      invocations := d.invocations ++ [Invocation.of i.id i.source]
      names := d.names ++ { sources := [i.source] } }
  | .initial index => { d with initial := some index }
  | .doneData value => { d with doneData := some value }

/-- The kind of a state with these children. Leaves keep none. -/
def kind (type : StateType) (d : Draft) (identity : Nat) (children : List State) :
    StateKind State :=
  match type with
  | .compound =>
    match children[d.initial.getD 0 % children.length]? with
    | some first => .compound first.key children
    | none => .atomic
  | .parallel => .parallel children
  | .final => .final (d.doneData.map (DoneData.constant identity))
  | .history => .history .shallow
  | .atomic => .atomic

/-- What is left of an assembly: the updates of the states to come, the names used so far, and how
many states there are already. -/
structure Progress where
  updates : List (List Update)
  names : Names := {}
  count : Nat := 0

/-- Take the updates of the next state. Without any left it has none. -/
def Progress.next (p : Progress) (id : String) : Draft × Progress :=
  let d := (p.updates.headD []).foldl (Draft.update id) {}
  (d, ⟨p.updates.drop 1, p.names ++ d.names, p.count + 1⟩)

mutual

/-- Assemble a state and all below it. -/
def state (p : Progress) : Layout → State × Progress
  | ⟨id, type, children⟩ =>
    let (d, q) := p.next id
    let (below, q) := states q children
    let facets : Facets :=
      { Facets.named id id with transitions := d.transitions, invocations := d.invocations }
    (⟨facets, kind type d p.count below⟩, q)

/-- Assemble states one after the other. -/
def states (p : Progress) : List Layout → List State × Progress
  | [] => ([], p)
  | l :: ls =>
    let (s, p) := state p l
    let (ss, p) := states p ls
    (s :: ss, p)

end

/-- The machine of a laid-out shape, with the updates of its states in their order. Lists that are
missing are empty, and those left over are not used. -/
def build (l : Layout) (updates : List (List Update)) : GeneratedMachine :=
  let (root, p) := state { updates } l
  { machine := ⟨root, .null⟩
    states := l.properIds
    events := distinct p.names.events
    actions := distinct p.names.actions
    guards := distinct p.names.guards
    sources := distinct p.names.sources }

end Assembly

end Statechart
