import Statechart.Import.Index
import Statechart.Import.Problem

/-!
# Building machines from configs

An import gives every state its id and its kind and resolves every target. It goes on past a
problem with the best state it can make, so that all problems are found; a machine is the result
only if there are none.

The same pass builds states that are declared below a state that exists already. Then nothing is
reported, and a target that does not resolve is taken for the id of a state outside.
-/

namespace Statechart

/-- A value and the problems that were found on the way to it. -/
structure Checked (α : Type) where
  value : α
  problems : List Problem

namespace Checked

variable {α β : Type}

instance : Monad Checked where
  pure x := ⟨x, []⟩
  bind c f := ⟨(f c.value).value, c.problems ++ (f c.value).problems⟩

/-- Report a problem. -/
def report (p : Problem) : Checked Unit := ⟨(), [p]⟩

/-- Build something from each item in turn. -/
def each (build : α → Checked β) : List α → Checked (List β)
  | [] => pure []
  | x :: xs => do
    let y ← build x
    let ys ← each build xs
    return y :: ys

end Checked

/-- What becomes of a target that does not resolve. -/
inductive Resolution where
  /-- It is a problem. -/
  | strict
  /-- It is the id of a state that is not in the index. -/
  | lenient
deriving DecidableEq

namespace Import

variable (ix : Index) (resolution : Resolution)

/-- The id that a target stands for, if it stands for one. -/
def target (id : String) (path : List String) (reference : String) : Checked (Option String) :=
  match ix.resolve? path reference with
  | some found => return some found
  | none =>
    match resolution with
    | .strict => do
      Checked.report (.unknownTarget id reference)
      return none
    | .lenient => return some (Text.trimLead '#' reference)

/-- Does the source of a transition stay active, if the config does not say so? It does when there
is no target, and when some target is below the source. -/
def internalByDefault (targets : List String) : Bool :=
  targets.isEmpty || targets.any (Text.startsWith ".")

/-- The transition that the state `id` at `path` declares for `event`. The delay of the trigger goes
before one that the config gives. -/
def transition (id : String) (path : List String) (event : String) (delay : Option Delay)
    (c : TransitionConfig) : Checked Transition := do
  let targets ← Checked.each (target ix resolution id path) c.targets
  return {
    source := id
    event := event
    targets := targets.filterMap fun t ↦ t
    actions := c.actions
    guard := c.guard
    delay := delay <|> c.delay
    internal := c.internal.getD (internalByDefault c.targets)
    inState := c.inState
    description := c.description
    metadata := c.metadata }

/-- What triggers a group of transitions, and the transitions. -/
structure Group where
  event : String
  delay : Option Delay
  transitions : List TransitionConfig

/-- The groups of the invocations from the `index`th on: for each completion, then failure. -/
def invocationGroups (id : String) (index : Nat) : List InvocationConfig → List Group
  | [] => []
  | i :: is =>
    let name := i.idAt id index
    ⟨Event.doneInvoke name, none, i.onDone⟩ :: ⟨Event.errorPlatform name, none, i.onError⟩
      :: invocationGroups id (index + 1) is

/-- The transitions that a state declares, group by group: by event, on its completion, on those of
its invocations, after delays, and without an event. -/
def groups (id : String) (f : ConfigFacets) : List Group :=
  f.on.map (fun e ↦ ⟨e.1, none, e.2⟩)
    ++ [⟨Event.doneState id, none, f.onDone⟩]
    ++ invocationGroups id 0 f.invocations
    ++ f.after.map (fun e ↦ ⟨Event.after (Delay.ofKey e.1) id, some (Delay.ofKey e.1), e.2⟩)
    ++ [⟨Event.always, none, f.always⟩]

/-- The transitions of a state. -/
def transitions (id : String) (path : List String) (f : ConfigFacets) :
    Checked (List Transition) := do
  let lists ← Checked.each
    (fun g : Group ↦ Checked.each (transition ix resolution id path g.event g.delay) g.transitions)
    (groups id f)
  return lists.flatten

/-- The key of the initial child of a compound state with children. -/
def initial (id : String) (f : ConfigFacets) (states : List (String × StateConfig)) :
    Checked String :=
  match f.initial with
  | some key =>
    if Keyed.has key states then return key
    else do
      Checked.report (.unknownInitial id key)
      return key
  | none => do
    Checked.report (.missingInitial id)
    return (Keyed.keys states).headD ""

/-- The type of a state: the given one, or else compound for a state with children and atomic for
one without. -/
def type (f : ConfigFacets) (states : List (String × StateConfig)) : StateType :=
  f.type.getD (if states.isEmpty then .atomic else .compound)

/-- The kind of a leaf. -/
def leaf (id : String) (states : List (String × StateConfig))
    (leafType : StateType) (kind : StateKind State) : Checked (StateKind State) :=
  if states.isEmpty then return kind
  else do
    Checked.report (.unexpectedChildren id leafType)
    return kind

mutual

/-- The state `id` at `path`, declared under `key`. -/
def state (id key : String) (path : List String) : StateConfig → Checked State
  | ⟨f, states⟩ => do
    let kind ←
      match type f states with
      | .compound =>
        if states.isEmpty then pure .atomic
        else do
          let key ← initial id f states
          let below ← children id path states
          pure (.compound key below)
      | .parallel => do
        if states.isEmpty then Checked.report (.emptyParallel id)
        let below ← children id path states
        pure (.parallel below)
      | .final => leaf id states .final (.final f.doneData)
      | .history => leaf id states .history (.history (f.history.getD .shallow))
      | .atomic => leaf id states .atomic .atomic
    let transitions ← transitions ix resolution id path f
    return ⟨{
      id := id
      key := key
      entry := f.entry
      exit := f.exit
      invocations := InvocationConfig.toInvocations id 0 f.invocations
      transitions := transitions
      tags := f.tags
      metadata := f.metadata
      description := f.description }, kind⟩

/-- The children of the state `parent` at `path`. -/
def children (parent : String) (path : List String) :
    List (String × StateConfig) → Checked (List State)
  | [] => return []
  | (key, c) :: cs => do
    let s ← state (Index.childId parent key c) key (path ++ [key]) c
    let ss ← children parent path cs
    return s :: ss

end

/-- The states declared below the existing state `parent`, which is the only one that references may
lead to besides them. -/
def declared (parent : String) (states : List (String × StateConfig)) : List State :=
  (children (Index.below parent states) .lenient parent [] states).value

end Import

namespace Machine

/-- The id of a root state that does not name one. -/
def defaultId : String := "(machine)"

/-- The root state that a config describes, and its problems: first the ids that are used twice. -/
def check (c : MachineConfig) : Checked State :=
  let id := c.root.id.getD defaultId
  let ix := Index.below id c.root.states
  do
    let _ ← Checked.each (fun id ↦ Checked.report (.duplicateId id)) ix.duplicates
    Import.state ix .strict id id [] c.root

/-- The machine that a config describes, or all problems of the config. -/
def ofConfig (c : MachineConfig) : Except (List Problem) Machine :=
  let checked := check c
  if checked.problems.isEmpty then .ok ⟨checked.value, c.context⟩ else .error checked.problems

end Machine

end Statechart
