import Statechart.Config
import Statechart.Json.Printer

/-!
# The written form of machines and configs

Every type of a definition or a config as a JSON value, with its fields in a fixed order.

In a config whatever is absent or empty is left out. In a definition only the optional fields are
left out, so that lists are always present. Done data mappers are not written.
-/

namespace Statechart

namespace Printing

/-- The member of the given name, unless the value is absent. -/
def ifSome {α : Type} (name : String) (write : α → Json) : Option α → List (String × Json)
  | some x => [(name, write x)]
  | none => []

/-- The member of the given name, unless the list is empty. -/
def ifAny {α : Type} (name : String) (write : List α → Json) (xs : List α) :
    List (String × Json) :=
  if xs.isEmpty then [] else [(name, write xs)]

/-- A list, each item written the same way. -/
def list {α : Type} (write : α → Json) (xs : List α) : Json := .list (xs.map write)

/-- Metadata under its name, unless it is absent. -/
def metadata : Option Json → List (String × Json)
  | some j => [("meta", j)]
  | none => []

end Printing

open Printing

/-- An action as an object: its name under `type`, then its parameters. -/
def Action.toJson (a : Action) : Json := .object (("type", .text a.name) :: a.params)

/-- A guard as an object: its name under `type`, then its parameters. -/
def Guard.toJson (g : Guard) : Json := .object (("type", .text g.name) :: g.params)

/-- A delay as a number or a text. -/
def Delay.toJson : Delay → Json
  | .millis ms => .ofNat ms.toNat
  | .named name => .text name

/-! ### Definitions -/

/-- An invocation of a definition. -/
def Invocation.toJson (i : Invocation) : Json :=
  .object <|
    [("id", .text i.id), ("src", .text i.source)]
      ++ (if i.autoForward then [("autoForward", .bool true)] else [])
      ++ Printing.metadata i.metadata

/-- A transition of a definition. -/
def Transition.toJson (t : Transition) : Json :=
  .object <|
    [("source", .text t.source), ("eventType", .text t.event), ("target", .ofTexts t.targets),
      ("actions", list Action.toJson t.actions)]
      ++ ifSome "cond" Guard.toJson t.guard
      ++ ifSome "delay" Delay.toJson t.delay
      ++ [("internal", .bool t.internal)]
      ++ ifSome "in" .text t.inState
      ++ ifSome "description" .text t.description
      ++ Printing.metadata t.metadata

namespace State

/-- The members of a state, with those of its kind given. -/
def members (f : Facets) (kind : List (String × Json)) : List (String × Json) :=
  [("id", .text f.id), ("key", .text f.key)]
    ++ kind
    ++ [("entry", list Action.toJson f.entry), ("exit", list Action.toJson f.exit),
      ("invoke", list Invocation.toJson f.invocations),
      ("transitions", list Transition.toJson f.transitions), ("tags", .ofTexts f.tags)]
    ++ Printing.metadata f.metadata
    ++ ifSome "description" .text f.description

mutual

/-- A state of a definition and all below it. -/
def toJson : State → Json
  | ⟨f, k⟩ => .object (members f (kindMembers k))

/-- The members that say of what kind a state is. -/
def kindMembers : StateKind State → List (String × Json)
  | .atomic => [("type", .text "atomic")]
  | .compound initial states =>
    [("type", .text "compound"), ("initial", .text initial), ("states", .list (toJsons states))]
  | .parallel states => [("type", .text "parallel"), ("states", .list (toJsons states))]
  | .final _ => [("type", .text "final")]
  | .history kind => [("type", .text "history"), ("history", .text kind.word)]

/-- The states of the list. -/
def toJsons : List State → List Json
  | [] => []
  | s :: ss => toJson s :: toJsons ss

end

end State

/-- A machine definition. A context of `null` is left out. -/
def Machine.toJson (m : Machine) : Json :=
  .object (("root", m.root.toJson) :: if m.context.isNull then [] else [("context", m.context)])

/-! ### Configs -/

/-- A transition of a config. -/
def TransitionConfig.toJson (t : TransitionConfig) : Json :=
  .object <|
    ifSome "event" .text t.event
      ++ ifAny "target" .ofTexts t.targets
      ++ ifAny "actions" (list Action.toJson) t.actions
      ++ ifSome "cond" Guard.toJson t.guard
      ++ ifSome "delay" Delay.toJson t.delay
      ++ ifSome "internal" .bool t.internal
      ++ ifSome "in" .text t.inState
      ++ ifSome "description" .text t.description
      ++ Printing.metadata t.metadata

/-- The transitions that a config declares for one trigger. -/
def TransitionConfig.listToJson (ts : List TransitionConfig) : Json :=
  list TransitionConfig.toJson ts

/-- An invocation of a config. -/
def InvocationConfig.toJson (i : InvocationConfig) : Json :=
  .object <|
    ifSome "id" .text i.id
      ++ [("src", .text i.source)]
      ++ (if i.autoForward then [("autoForward", .bool true)] else [])
      ++ ifAny "onDone" TransitionConfig.listToJson i.onDone
      ++ ifAny "onError" TransitionConfig.listToJson i.onError
      ++ Printing.metadata i.metadata

namespace StateConfig

/-- Transitions by key. A key whose list is empty is kept. -/
def transitionsByKey (es : List (String × List TransitionConfig)) : Json :=
  .object (es.map fun e ↦ (e.1, TransitionConfig.listToJson e.2))

/-- The members of the config of a state, with those of its children given. -/
def members (f : ConfigFacets) (states : List (String × Json)) : List (String × Json) :=
  ifSome "type" (fun type ↦ .text type.word) f.type
    ++ ifSome "id" .text f.id
    ++ ifSome "initial" .text f.initial
    ++ ifAny "states" .object states
    ++ ifAny "on" transitionsByKey f.on
    ++ ifAny "always" TransitionConfig.listToJson f.always
    ++ ifAny "after" transitionsByKey f.after
    ++ ifAny "onDone" TransitionConfig.listToJson f.onDone
    ++ ifAny "invoke" (list InvocationConfig.toJson) f.invocations
    ++ ifAny "entry" (list Action.toJson) f.entry
    ++ ifAny "exit" (list Action.toJson) f.exit
    ++ ifAny "tags" .ofTexts f.tags
    ++ Printing.metadata f.metadata
    ++ ifSome "description" .text f.description
    ++ ifSome "history" (fun kind ↦ .text kind.word) f.history

mutual

/-- The members of the config of a state. -/
def toMembers : StateConfig → List (String × Json)
  | ⟨f, states⟩ => members f (childMembers states)

/-- The configs of the children under their keys. -/
def childMembers : List (String × StateConfig) → List (String × Json)
  | [] => []
  | (k, c) :: cs => (k, .object (toMembers c)) :: childMembers cs

end

/-- The config of a state. -/
def toJson (c : StateConfig) : Json := .object c.toMembers

end StateConfig

/-- The config of a machine: the members of its root, and the context unless it is `null`. -/
def MachineConfig.toJson (c : MachineConfig) : Json :=
  .object (c.root.toMembers ++ if c.context.isNull then [] else [("context", c.context)])

end Statechart
