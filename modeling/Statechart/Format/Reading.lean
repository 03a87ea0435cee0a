import Statechart.Config
import Statechart.Format.Decoding

/-!
# Reading machines and configs

The decoders of every type of a definition or a config. A config knows shorthands: one item in
place of a list, a text in place of a transition, an action or a guard. A definition has none.

What only a state's kind has is decoded after all its facets, and from fields that are held; so is
the whole config of a machine but for its context.
-/

namespace Statechart

open Decoding

/-! ### Actions, guards and delays -/

/-- Read a name under `type` and every other member as a parameter. -/
def Decoding.nameAndParams (name : Option String) (params : List (String × Json)) :
    List (Label × Document) → Decoded (String × List (String × Json))
  | [] =>
    match name with
    | some name => .ok (name, params)
    | none => .error (.missingField "type")
  | (.fault _, _) :: _ => .error .invalid
  | (.name k, d) :: ms =>
    if k = "type" then
      if name.isSome then .error (.duplicateField "type")
      else do
        let s ← text d
        nameAndParams (some s) params ms
    else do
      let j ← value d
      nameAndParams name (Json.insertMember k j params) ms

/-- An action in its long form. -/
def Action.decode : Document → Decoded Action
  | .object ms => do
    let (name, params) ← nameAndParams none [] ms
    return ⟨name, params⟩
  | _ => .error .invalid

/-- A guard in its long form. -/
def Guard.decode : Document → Decoded Guard
  | .object ms => do
    let (name, params) ← nameAndParams none [] ms
    return ⟨name, params⟩
  | _ => .error .invalid

/-- An action, for which its name alone may stand. -/
def Action.decodeShort : Document → Decoded Action
  | .text name => .ok (.named name)
  | d => Action.decode d

/-- A guard, for which its name alone may stand. -/
def Guard.decodeShort : Document → Decoded Guard
  | .text name => .ok (.named name)
  | d => Guard.decode d

/-- The guard of a transition config. Whatever is wrong with it, neither form fits. -/
def Guard.decodeChoice (d : Document) : Decoded Guard :=
  if d.sound then
    match Guard.decodeShort d with
    | .ok g => .ok g
    | .error _ => .error (.noVariant .namedOr)
  else .error .invalid

/-- A delay: an integer that fits into a word, or a name. -/
def Delay.decode (d : Document) : Decoded Delay :=
  if d.sound then
    match d with
    | .number (.int i) =>
      if 0 ≤ i ∧ i < UInt64.size then .ok (.millis (UInt64.ofNat i.toNat))
      else .error (.noVariant .delay)
    | .text name => .ok (.named name)
    | _ => .error (.noVariant .delay)
  else .error .invalid

/-! ### Definitions -/

/-- An invocation of a definition. -/
def Invocation.record : Record Invocation where
  fields := ["id", "src", "autoForward", "meta"]
  required := ["id", "src"]
  start := ⟨"", "", false, none⟩
  put name d i :=
    match name with
    | "id" => return { i with id := ← text d }
    | "src" => return { i with source := ← text d }
    | "autoForward" => return { i with autoForward := ← bool d }
    | _ => return { i with metadata := ← optional value d }

/-- An invocation of a definition. -/
def Invocation.decode : Document → Decoded Invocation := Invocation.record.decode

/-- A transition of a definition. -/
def Transition.record : Record Transition where
  fields := ["source", "eventType", "target", "actions", "cond", "delay", "internal", "in",
    "description", "meta"]
  required := ["source", "eventType"]
  start := .of "" ""
  put name d t :=
    match name with
    | "source" => return { t with source := ← text d }
    | "eventType" => return { t with event := ← text d }
    | "target" => return { t with targets := ← list text d }
    | "actions" => return { t with actions := ← list Action.decode d }
    | "cond" => return { t with guard := ← optional Guard.decode d }
    | "delay" => return { t with delay := ← optional Delay.decode d }
    | "internal" => return { t with internal := ← bool d }
    | "in" => return { t with inState := ← optional text d }
    | "description" => return { t with description := ← optional text d }
    | _ => return { t with metadata := ← optional value d }

/-- A transition of a definition. -/
def Transition.decode : Document → Decoded Transition := Transition.record.decode

namespace State

/-- The facets of a state. -/
def facets : Record Facets where
  fields := ["id", "key", "entry", "exit", "invoke", "transitions", "tags", "meta", "description"]
  required := ["id", "key"]
  start := Facets.named "" ""
  put name d f :=
    match name with
    | "id" => return { f with id := ← text d }
    | "key" => return { f with key := ← text d }
    | "entry" => return { f with entry := ← list Action.decode d }
    | "exit" => return { f with exit := ← list Action.decode d }
    | "invoke" => return { f with invocations := ← list Invocation.decode d }
    | "transitions" => return { f with transitions := ← list Transition.decode d }
    | "tags" => return { f with tags := ← list text d }
    | "meta" => return { f with metadata := ← optional value d }
    | _ => return { f with description := ← optional text d }

/-- Read the facets among the members of a state. All other members must be sound: they are held
for the kind. -/
def readFacets (seen : List String) (f : Facets) : List (Label × Document) → Decoded Facets
  | [] => facets.finish seen f
  | (.fault _, _) :: _ => .error .invalid
  | (.name k, d) :: ms =>
    if facets.fields.contains k then
      if seen.contains k then .error (.duplicateField k)
      else do
        let f ← facets.put k d f
        readFacets (k :: seen) f ms
    else if d.sound then readFacets seen f ms
    else .error .invalid

/-- Does a member belong to the kind of a state? -/
def ofKind (label : Label) : Bool :=
  match label with
  | .name k => !facets.fields.contains k
  | .fault _ => false

/-- The type of a state: a word, or in a held document also its number. -/
def decodeType (medium : Medium) : Document → Decoded StateType
  | .text s => known StateType.ofWord? s
  | .number (.int i) =>
    match medium, StateType.every[i.toNat]? with
    | .held, some type => if 0 ≤ i then .ok type else .error .invalid
    | _, _ => .error .invalid
  | _ => .error .invalid

/-- Find the type of a state among the members that belong to its kind. -/
def findType (medium : Medium) (mine : Label → Bool) (found : Option StateType) :
    List (Label × Document) → Decoded StateType
  | [] =>
    match found with
    | some type => .ok type
    | none => .error (.missingField "type")
  | (l, d) :: ms =>
    if mine l ∧ l = .name "type" then
      if found.isSome then .error (.duplicateField "type")
      else do
        let type ← decodeType medium d
        findType medium mine (some type) ms
    else findType medium mine found ms

/-- The kind of history among the members of a history state. -/
def findHistory (mine : Label → Bool) (found : Option HistoryKind) :
    List (Label × Document) → Decoded HistoryKind
  | [] => .ok (found.getD .shallow)
  | (l, d) :: ms =>
    if mine l ∧ l = .name "history" then
      if found.isSome then .error (.duplicateField "history")
      else do
        let kind ← word .held HistoryKind.ofWord? d
        findHistory mine (some kind) ms
    else findHistory mine found ms

/-- A field that the kind requires. -/
def require {α : Type} (name : String) : Option α → Decoded α
  | some x => .ok x
  | none => .error (.missingField name)

mutual

/-- A state of a definition and all below it. -/
def decode : Document → Decoded State
  | .object ms => do
    let f ← readFacets [] (Facets.named "" "") ms
    let k ← decodeKind .held ofKind ms
    return ⟨f, k⟩
  | _ => .error .invalid

/-- The kind of a state, from those of its members that are `mine`. -/
def decodeKind (medium : Medium) (mine : Label → Bool) (ms : List (Label × Document)) :
    Decoded (StateKind State) :=
  match findType medium mine none ms with
  | .error e => .error e
  | .ok .atomic => .ok .atomic
  | .ok .compound => do
    let (initial, states) ← readCompound mine none none ms
    return .compound initial states
  | .ok .parallel => do
    let states ← readParallel mine none ms
    return .parallel states
  | .ok .final => .ok (.final none)
  | .ok .history => do
    let kind ← findHistory mine none ms
    return .history kind

/-- What a compound state has: the key of its initial child, and its children. -/
def readCompound (mine : Label → Bool) (initial : Option String) (states : Option (List State)) :
    List (Label × Document) → Decoded (String × List State)
  | [] => do
    let initial ← require "initial" initial
    let states ← require "states" states
    return (initial, states)
  | (l, d) :: ms =>
    if mine l ∧ l = .name "initial" then
      if initial.isSome then .error (.duplicateField "initial")
      else
        match text d with
        | .ok s => readCompound mine (some s) states ms
        | .error e => .error e
    else if mine l ∧ l = .name "states" then
      if states.isSome then .error (.duplicateField "states")
      else
        match decodeList d with
        | .ok ss => readCompound mine initial (some ss) ms
        | .error e => .error e
    else readCompound mine initial states ms

/-- What a parallel state has: its children. -/
def readParallel (mine : Label → Bool) (states : Option (List State)) :
    List (Label × Document) → Decoded (List State)
  | [] => require "states" states
  | (l, d) :: ms =>
    if mine l ∧ l = .name "states" then
      if states.isSome then .error (.duplicateField "states")
      else
        match decodeList d with
        | .ok ss => readParallel mine (some ss) ms
        | .error e => .error e
    else readParallel mine states ms

/-- A list of states. -/
def decodeList : Document → Decoded (List State)
  | .list ds => decodeAll ds
  | _ => .error .invalid

/-- Every state in turn. -/
def decodeAll : List Document → Decoded (List State)
  | [] => .ok []
  | d :: ds => do
    let s ← decode d
    let ss ← decodeAll ds
    return s :: ss

end

/-- The kind of a state on its own, taken from a value: an object, or a list of the type and the
fields of the kind in their order. -/
def decodeBareKind : Document → Decoded (StateKind State)
  | .object ms => decodeKind .inline (fun _ ↦ true) ms
  | .list [] => .error (.missingField "type")
  | .list (d :: ds) => do
    let type ← decodeType .inline d
    match type, ds with
    | .atomic, [] => return .atomic
    | .final, [] => return .final none
    | .history, [] => return .history .shallow
    | .history, [h] => return .history (← word .held HistoryKind.ofWord? h)
    | .compound, [i, ss] => return .compound (← text i) (← decodeList ss)
    | .parallel, [ss] => return .parallel (← decodeList ss)
    | _, _ => .error .invalid
  | _ => .error .invalid

end State

/-- A machine definition. -/
def Machine.record : Record Machine where
  fields := ["root", "context"]
  required := ["root"]
  start := ⟨default, .null⟩
  put name d m :=
    match name with
    | "root" => return { m with root := ← State.decode d }
    | _ => return { m with context := ← value d }

/-- A machine definition. -/
def Machine.decode : Document → Decoded Machine := Machine.record.decode

/-! ### Configs -/

/-- A transition of a config, in its long form. -/
def TransitionConfig.record : Record TransitionConfig where
  fields := ["event", "target", "actions", "cond", "delay", "internal", "in", "description", "meta"]
  required := []
  start := {}
  put name d t :=
    match name with
    | "event" => return { t with event := ← optional text d }
    | "target" => return { t with targets := ← oneOrMany text d }
    | "actions" => return { t with actions := ← oneOrMany Action.decodeShort d }
    | "cond" => return { t with guard := some (← Guard.decodeChoice d) }
    | "delay" => return { t with delay := ← optional Delay.decode d }
    | "internal" => return { t with internal := ← optional bool d }
    | "in" => return { t with inState := ← optional text d }
    | "description" => return { t with description := ← optional text d }
    | _ => return { t with metadata := ← optional value d }

namespace TransitionConfig

/-- A transition of a config, in its long form. -/
def decode : Document → Decoded TransitionConfig := record.decode

/-- A transition of a config, for which a single target may stand. -/
def decodeShort : Document → Decoded TransitionConfig
  | .text target => .ok (.to [target])
  | d => decode d

/-- The transitions that a config declares for one trigger. -/
def decodeList : Document → Decoded (List TransitionConfig) := oneOrMany decodeShort

end TransitionConfig

/-- An invocation of a config. -/
def InvocationConfig.record : Record InvocationConfig where
  fields := ["id", "src", "autoForward", "onDone", "onError", "meta"]
  required := ["src"]
  start := { source := "" }
  put name d i :=
    match name with
    | "id" => return { i with id := ← optional text d }
    | "src" => return { i with source := ← text d }
    | "autoForward" => return { i with autoForward := ← bool d }
    | "onDone" => return { i with onDone := ← TransitionConfig.decodeList d }
    | "onError" => return { i with onError := ← TransitionConfig.decodeList d }
    | _ => return { i with metadata := ← optional value d }

/-- An invocation of a config. -/
def InvocationConfig.decode : Document → Decoded InvocationConfig := InvocationConfig.record.decode

namespace StateConfig

/-- The fields of the config of a state. The children are read by `decode`. -/
def fields : List String :=
  ["type", "id", "initial", "states", "on", "always", "after", "onDone", "invoke", "entry", "exit",
    "tags", "meta", "description", "history"]

/-- Read any field but the children. -/
def putField (medium : Medium) (name : String) (d : Document) (f : ConfigFacets) :
    Decoded ConfigFacets :=
  match name with
  | "type" => return { f with type := ← optional (word medium StateType.ofWord?) d }
  | "id" => return { f with id := ← optional text d }
  | "initial" => return { f with initial := ← optional text d }
  | "on" => return { f with on := ← entries TransitionConfig.decodeList d }
  | "always" => return { f with always := ← TransitionConfig.decodeList d }
  | "after" => return { f with after := ← entries TransitionConfig.decodeList d }
  | "onDone" => return { f with onDone := ← TransitionConfig.decodeList d }
  | "invoke" => return { f with invocations := ← oneOrMany InvocationConfig.decode d }
  | "entry" => return { f with entry := ← oneOrMany Action.decodeShort d }
  | "exit" => return { f with exit := ← oneOrMany Action.decodeShort d }
  | "tags" => return { f with tags := ← oneOrMany text d }
  | "meta" => return { f with metadata := ← optional value d }
  | "description" => return { f with description := ← optional text d }
  | _ => return { f with history := ← optional (word medium HistoryKind.ofWord?) d }

mutual

/-- The config of a state and of the states below it. -/
def decode (medium : Medium) : Document → Decoded StateConfig
  | .object ms => decodeMembers medium [] empty ms
  | .list ds => decodePositional medium empty fields ds
  | _ => .error .invalid

/-- Read the members of the config of a state. -/
def decodeMembers (medium : Medium) (seen : List String) (c : StateConfig) :
    List (Label × Document) → Decoded StateConfig
  | [] => .ok c
  | (.fault _, _) :: _ => .error .invalid
  | (.name k, d) :: ms =>
    if fields.contains k then
      if seen.contains k then .error (.duplicateField k)
      else if k = "states" then
        match decodeStates medium d with
        | .ok states => decodeMembers medium (k :: seen) { c with states } ms
        | .error e => .error e
      else
        match putField medium k d c.toConfigFacets with
        | .ok f => decodeMembers medium (k :: seen) ⟨f, c.states⟩ ms
        | .error e => .error e
    else if d.grammatical then decodeMembers medium seen c ms
    else .error .invalid

/-- Read the items of a list as the fields of the given names. -/
def decodePositional (medium : Medium) (c : StateConfig) :
    List String → List Document → Decoded StateConfig
  | _, [] => .ok c
  | [], _ :: _ => .error .invalid
  | name :: names, d :: ds =>
    if name = "states" then
      match decodeStates medium d with
      | .ok states => decodePositional medium { c with states } names ds
      | .error e => .error e
    else
      match putField medium name d c.toConfigFacets with
      | .ok f => decodePositional medium ⟨f, c.states⟩ names ds
      | .error e => .error e

/-- The children under their keys. -/
def decodeStates (medium : Medium) : Document → Decoded (List (String × StateConfig))
  | .object ms => decodeChildren medium [] ms
  | _ => .error .invalid

/-- Every child in turn, put under its key. -/
def decodeChildren (medium : Medium) (kept : List (String × StateConfig)) :
    List (Label × Document) → Decoded (List (String × StateConfig))
  | [] => .ok kept
  | (.fault _, _) :: _ => .error .invalid
  | (.name k, d) :: ms =>
    match decode medium d with
    | .ok c => decodeChildren medium (Keyed.put k c kept) ms
    | .error e => .error e

end

end StateConfig

namespace MachineConfig

/-- Read the context among the members of a machine config. All other members must be sound: they
are held for the root state. -/
def readContext (found : Option Json) : List (Label × Document) → Decoded Json
  | [] => .ok (found.getD .null)
  | (.fault _, _) :: _ => .error .invalid
  | (.name k, d) :: ms =>
    if k = "context" then
      if found.isSome then .error (.duplicateField "context")
      else do
        let j ← value d
        readContext (some j) ms
    else if d.sound then readContext found ms
    else .error .invalid

/-- The config of a machine. -/
def decode : Document → Decoded MachineConfig
  | .object ms => do
    let context ← readContext none ms
    let root ← StateConfig.decodeMembers .held [] .empty ms
    return ⟨root, context⟩
  | _ => .error .invalid

end MachineConfig

end Statechart
