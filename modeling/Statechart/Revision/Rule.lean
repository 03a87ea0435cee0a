import Statechart.Revision.Standard

/-!
# Rules

Mappers given as data. A `Rule` makes its edits at every state that its `Selector` matches; a patch
replaces some fields of a transition, an invocation or an action; a `TransitionTest` says which
transitions to keep.
-/

namespace Statechart

/-- What a state must be like. What is not given does not matter. -/
structure Selector where
  id : Option String := none
  key : Option String := none
  type : Option StateType := none
  /-- The number of states above it. -/
  depth : Option Nat := none
  /-- One of the tags that it had before. -/
  tag : Option String := none
  /-- The key of one of the children that it had before. -/
  childKey : Option String := none
  /-- The id of its parent. -/
  parent : Option String := none
  /-- One of the tags of its revised parent. -/
  parentTag : Option String := none

/-- Does the state match? The root has no parent. -/
def Selector.accepts (s : Selector) (p : PendingState) (path : List State) : Bool :=
  s.id.all (· == p.base.id)
    && s.key.all (· == p.base.key)
    && s.type.all (· == p.base.type)
    && s.depth.all (· == path.length)
    && s.tag.all p.base.tags.contains
    && s.childKey.all p.childKeys.contains
    && s.parent.all (fun id ↦ path.getLast?.any (·.id == id))
    && s.parentTag.all (fun tag ↦ path.getLast?.any (·.tags.contains tag))

/-! ### Patches -/

/-- New values for some fields of a transition, and actions to add to those that it then has. -/
structure TransitionPatch where
  event : Option (Option String) := none
  targets : Option (List String) := none
  actions : Option (List Action) := none
  guard : Option (Option Guard) := none
  delay : Option (Option Delay) := none
  internal : Option (Option Bool) := none
  inState : Option (Option String) := none
  description : Option (Option String) := none
  metadata : Option (Option Json) := none
  addedActions : List Action := []

/-- The transition with the new values. -/
def TransitionPatch.apply (p : TransitionPatch) (t : TransitionConfig) : TransitionConfig where
  event := p.event.getD t.event
  targets := p.targets.getD t.targets
  actions := p.actions.getD t.actions ++ p.addedActions
  guard := p.guard.getD t.guard
  delay := p.delay.getD t.delay
  internal := p.internal.getD t.internal
  inState := p.inState.getD t.inState
  description := p.description.getD t.description
  metadata := p.metadata.getD t.metadata

/-- New values for some fields of an invocation. -/
structure InvocationPatch where
  id : Option (Option String) := none
  source : Option String := none
  autoForward : Option Bool := none
  onDone : Option (List TransitionConfig) := none
  onError : Option (List TransitionConfig) := none
  metadata : Option (Option Json) := none

/-- The invocation with the new values. -/
def InvocationPatch.apply (p : InvocationPatch) (i : InvocationConfig) : InvocationConfig where
  id := p.id.getD i.id
  source := p.source.getD i.source
  autoForward := p.autoForward.getD i.autoForward
  onDone := p.onDone.getD i.onDone
  onError := p.onError.getD i.onError
  metadata := p.metadata.getD i.metadata

/-- A text to put before the name of an action, and parameters to set. -/
structure ActionPatch where
  lead : String := ""
  params : List (String × Json) := []

/-- The action with the new name and parameters. -/
def ActionPatch.apply (p : ActionPatch) (a : Action) : Action where
  name := p.lead ++ a.name
  params := p.params.foldl (fun params m ↦ Json.insertMember m.1 m.2 params) a.params

/-! ### Rules -/

/-- What a rule does to a state. -/
inductive RuleStep where
  | edit (e : Edit)
  /-- Take the tags of the revised parent and add one for the depth. -/
  | inheritTags

/-- The edit that a step stands for below the states of `path`. -/
def RuleStep.toEdit (path : List State) : RuleStep → Edit
  | .edit e => e
  | .inheritTags =>
    .setTags ((path.getLast?.map (·.tags)).getD [] ++ ["depth" ++ Decimal.text path.length])

/-- Steps to take at every state that matches. -/
structure Rule where
  selector : Selector
  steps : List RuleStep

/-- The steps of all rules that match, in order. -/
def Rule.stepsFor (rules : List Rule) (p : PendingState) (path : List State) : List RuleStep :=
  (rules.filter fun r ↦ r.selector.accepts p path).flatMap (·.steps)

/-- What a mapper saw and did at one state. -/
structure Visit where
  id : String
  /-- The ids of the states above. -/
  path : List String
  /-- Did none of the states above have children? -/
  bare : Bool
  childKeys : List String
  /-- How many edits were made. -/
  edits : Nat

/-- Take the steps of the rules at every state, and keep a record of the visits. -/
def Rule.mapper (rules : List Rule) : Mapper (List Visit) := fun visits p path ↦
  let steps := Rule.stepsFor rules p path
  let visit : Visit :=
    ⟨p.base.id, path.map (·.id), path.all State.isLeaf, p.childKeys, steps.length⟩
  (p.edit (steps.map (RuleStep.toEdit path)), visits ++ [visit])

/-! ### Which transitions to add and to keep -/

/-- Transitions to add to every state that matches. -/
structure Addition where
  selector : Selector
  transitions : List TransitionConfig
  /-- The event of a transition to the state itself. -/
  selfLoop : Option String
  /-- Add a transition whose event is the count of those that are there. -/
  count : Bool

/-- The transitions to add to a state. -/
def Addition.make (a : Addition) (p : PendingState) (path : List State) : List TransitionConfig :=
  if a.selector.accepts p path then
    a.transitions
      ++ (a.selfLoop.toList.map fun event ↦
        (TransitionConfig.to [Reference.absolute p.base.id]).onEvent event)
      ++ (if a.count then
          [(TransitionConfig.to []).onEvent ("n" ++ Decimal.text p.currentTransitions.length)]
        else [])
  else []

/-- What a transition must be like to be kept. What is not given does not matter. -/
structure TransitionTest where
  events : Option (List String) := none
  guarded : Option Bool := none
  delayed : Option Bool := none
  /-- One of the targets, as it is written. -/
  target : Option String := none
  /-- Keep none. -/
  never : Bool := false

/-- Is the transition kept? -/
def TransitionTest.accepts (k : TransitionTest) (t : TransitionConfig) : Bool :=
  !k.never
    && k.events.all (fun events ↦ t.event.any events.contains)
    && k.guarded.all (· == t.guard.isSome)
    && k.delayed.all (· == t.delay.isSome)
    && k.target.all t.targets.contains

end Statechart
