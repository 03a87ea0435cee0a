import Statechart.Config.LongForm
import Statechart.Generate.Draw
import Statechart.Revision.Rule
import Statechart.State.Inventory

/-!
# Laws of generated machines

What must hold of every shape and every machine that is drawn, as checks that can be run: a law
counts how often it is broken. The laws of a machine come in three groups: what the names that it
reports must be and what its structure must be like (`Laws.structural`), what its data must be like,
and what the queries, the mappers and the conversions must do to it (`Laws.engine`).
-/

namespace Statechart

/-- A law and how often it is broken. -/
structure LawCount where
  law : String
  broken : Nat

namespace LawCount

/-- A law that is broken at most once. -/
def ofBool (law : String) (holds : Bool) : LawCount := ⟨law, if holds then 0 else 1⟩

/-- A law that may be broken at each of the items. -/
def overAll {α : Type} (law : String) (holds : α → Bool) (xs : List α) : LawCount :=
  ⟨law, (xs.filter fun x ↦ !holds x).length⟩

/-- Add up the counts of each law, in the order in which the laws first come. -/
def total (counts : List LawCount) : List (String × Nat) :=
  counts.foldl (fun sums c ↦ Keyed.put c.law ((Keyed.find? c.law sums).getD 0 + c.broken) sums) []

end LawCount

namespace Laws

open LawCount

/-- Do two lists hold the same texts? -/
def sameSet (xs ys : List String) : Bool := xs.all ys.contains && ys.all xs.contains

/-- Does no text repeat? -/
def nodup (xs : List String) : Bool := (distinct xs).length == xs.length

/-! ### Names -/

/-- How a name is drawn. -/
inductive NameStyle where
  | state
  | event
  | plain

/-- Draw a name. -/
def NameStyle.draw : NameStyle → Seeded String
  | .state => Draw.stateName
  | .event => Draw.eventName
  | .plain => Draw.plainName

/-- Is the name one of its style? -/
def NameStyle.valid : NameStyle → String → Bool
  | .state => Name.isState
  | .event => Name.isEvent
  | .plain => fun _ ↦ true

/-- The least length of a name. -/
def NameStyle.least : NameStyle → Nat
  | .plain => 0
  | _ => 1

/-- Is `c` a control character? -/
def isControl (c : Char) : Bool := c.toNat < 0x20 || (0x7F ≤ c.toNat && c.toNat < 0xA0)

/-- The ids that the names get, one after the other, and the pool that is left. -/
def claimAll (pool : NamePool) : List String → List String × NamePool
  | [] => ([], pool)
  | name :: names =>
    let (id, pool) := pool.claim name
    let (ids, pool) := claimAll pool names
    (id :: ids, pool)

/-- The laws of a run of names. -/
def names (style : NameStyle) (drawn : List String) : List LawCount :=
  let (ids, pool) := claimAll .empty drawn
  [ overAll "valid" style.valid drawn,
    overAll "length" (fun s ↦ style.least ≤ s.length && s.length ≤ 8) drawn,
    overAll "noControl" (fun s ↦ !s.toList.any isControl) drawn,
    ofBool "claimedOnce" (nodup ids),
    ofBool "poolLength" (pool.size == drawn.length) ]

/-- What kinds of names turned up. -/
def seenInNames (drawn : List String) : List String :=
  drawn.flatMap fun s ↦
    ["length:" ++ Decimal.text s.length,
      if s.toList.all (·.toNat < 128) then "text:ascii" else "text:other"]

/-! ### Shapes -/

/-- Does a state of this shape have as many children, and such children, as its kind allows? -/
def withinBounds (s : Shape) : Bool :=
  match s.type with
  | .compound => 1 ≤ s.children.length && s.children.length ≤ Draw.maxChildren
  | .parallel =>
    1 ≤ s.children.length && s.children.length ≤ Draw.maxRegions
      && s.children.all (·.type == .compound)
  | _ => s.children.isEmpty

/-- The laws of a shape. -/
def shape (isRoot : Bool) (s : Shape) : List LawCount :=
  [ overAll "names" (fun t ↦ Name.isState t.name) s.preorder,
    overAll "bounds" withinBounds s.preorder,
    ofBool "depth" (s.depth ≤ 2 * Draw.levels),
    ofBool "size" (s.size == s.preorder.length),
    ofBool "rootType" (!isRoot || (s.type != .final && s.type != .history)) ]

/-- What kinds of shapes turned up. -/
def seenInShape (s : Shape) : List String :=
  ("root:" ++ s.type.word) :: (s.preorder.drop 1).map fun t ↦ "nested:" ++ t.type.word

/-! ### Machines: names and structure -/

/-- Is the transition taken on the completion or failure of one of the invocations? -/
def handlesInvocation (s : State) (t : Transition) : Bool :=
  s.invocations.any fun i ↦
    t.event == Event.doneInvoke i.id || t.event == Event.errorPlatform i.id

/-- Is the state as its kind demands? -/
def fitsType (isRoot : Bool) (s : State) : Bool :=
  match s.kind with
  | .atomic => s.transitions.length ≤ 6
  | .compound .. =>
    if isRoot then s.transitions.length ≤ 6
    else s.transitions.any (·.event == Event.doneState s.id) && s.transitions.length ≤ 7
  | .parallel states => states.all (·.type == .compound)
  | .final _ => s.transitions.all (handlesInvocation s)
  | .history kind => kind == .shallow && s.transitions.isEmpty && s.invocations.isEmpty

/-- Does a compound state start in one of its children? -/
def startsInChild (s : State) : Bool := s.initial?.all fun key ↦ (s.child? key).isSome

/-- Does a state have children exactly if it is compound or parallel? -/
def childrenFit (s : State) : Bool :=
  (s.type == .compound || s.type == .parallel) == !s.isLeaf

/-- Does a state have nothing but what is generated? -/
def isPlain (s : State) : Bool :=
  s.entry.isEmpty && s.exit.isEmpty && s.tags.isEmpty && s.metadata.isNone && s.description.isNone

/-- What must hold of the names that a machine reports and of its structure. -/
def structural (g : GeneratedMachine) : List LawCount :=
  let root := g.machine.root
  let states := root.states
  let proper := root.properStates.map (·.id)
  let transitions := root.allTransitions
  [ ofBool "states" (proper == g.states),
    ofBool "uniqueIds" (nodup (states.map (·.id))),
    ofBool "events" (distinct (transitions.map (·.event)) == g.events),
    ofBool "actions" (sameSet (root.allActions.map (·.name)) g.actions),
    ofBool "conditions" (sameSet (root.allGuards.map (·.name)) g.guards),
    ofBool "services" (sameSet (root.allInvocations.map (·.source)) g.sources),
    ofBool "deduplicated"
      (nodup g.states && nodup g.events && nodup g.actions && nodup g.guards && nodup g.sources),
    overAll "targets" (fun t ↦ t.targets.all proper.contains) transitions,
    overAll "internal" (fun t ↦ t.internal == t.targets.isEmpty) transitions,
    ofBool "rootType" (root.type != .final && root.type != .history),
    ofBool "rootNeverDone" (!root.transitions.any (·.event == Event.doneState root.id)),
    overAll "key" (fun s ↦ s.key == s.id && s.transitions.all (·.source == s.id)) states,
    overAll "bare" isPlain states,
    overAll "actionCap" (fun t ↦ t.actions.length ≤ Draw.maxActions) transitions,
    overAll "invokeCap" (fun s ↦ s.invocations.length ≤ Draw.maxUpdates) states,
    ⟨"byType", (if fitsType true root then 0 else 1)
      + (overAll "byType" (fitsType false) root.properStates).broken⟩,
    overAll "initial" startsInChild states,
    overAll "hasChildren" childrenFit states ]

/-! ### Machines: data -/

/-- Is done data an object of at most three fields? -/
def doneDataFits (s : State) : Bool :=
  s.doneData?.all fun d ↦
    match d.compute .null .null with
    | .object ms => ms.length ≤ 3
    | _ => false

/-- Is a delay small, or a name that does not read as a number? -/
def delayFits : Delay → Bool
  | .millis ms => ms.toNat < Draw.delayBound
  | .named name => name != "" && (Delay.word? name).isNone

/-- What must hold of the data of a machine. -/
def data (g : GeneratedMachine) : List LawCount :=
  [ overAll "doneData" doneDataFits g.machine.root.states,
    overAll "delayRange" (fun t ↦ t.delay.all delayFits) g.machine.root.allTransitions ]

/-! ### Machines: queries, mappers and conversions -/

mutual

/-- The id of every state with the ids of the states above it. -/
def trails (path : List String) : State → List (String × List String)
  | ⟨f, k⟩ => (f.id, path) :: trailsBelow (path ++ [f.id]) k

/-- The same for the states below a state of this kind. -/
def trailsBelow (path : List String) : StateKind State → List (String × List String)
  | .compound _ states => trailsAll path states
  | .parallel states => trailsAll path states
  | _ => []

/-- The same for states one after the other. -/
def trailsAll (path : List String) : List State → List (String × List String)
  | [] => []
  | s :: ss => trails path s ++ trailsAll path ss

end

/-- The ids of all states. -/
def ids (m : Machine) : List String := m.root.states.map (·.id)

/-- Do the categories hold each transition exactly once? -/
def partitioned (ts : List Transition) : Bool :=
  let b := Buckets.collect Prod.fst ts.zipIdx
  b.size == ts.length && (b.toList.map Prod.snd).isPerm (List.range ts.length)

/-- Are delayed transitions in their own category alone? -/
def delaysApart (ts : List Transition) : Bool :=
  let b := Buckets.ofTransitions ts
  b.delayDone.all (·.isDelayed) && b.delayDone.length == (ts.filter (·.isDelayed)).length
    && !b.always.any (·.isDelayed)

/-- Does every state come back with its transitions' actions followed by `actions`? -/
def actionsAppended (actions : List Action) (before after : Machine) : Bool :=
  after.root.allTransitions ==
    before.root.allTransitions.map fun t ↦ { t with actions := t.actions ++ actions }

/-- Is the last transition of the state one to itself on `refresh`? -/
def refreshes (s : State) : Bool :=
  match s.transitions.getLast? with
  | some t => t.event == "refresh" && t.targets == [s.id]
  | none => false

/-- Is the machine the same but for the order of the transitions in each state? -/
def keptByRoundTrip (before after : Machine) : Bool :=
  let b := before.root.states
  let a := after.root.states
  b.map (·.id) == a.map (·.id)
    && b.map (·.type) == a.map (·.type)
    && b.map (·.initial?) == a.map (·.initial?)
    && before.root.allTransitions.isPerm after.root.allTransitions
    && before.root.allInvocations == after.root.allInvocations

/-- What queries, mappers and conversions must do to a machine. -/
def engine (actions : List Action) (g : GeneratedMachine) : List LawCount :=
  let m := g.machine
  let transitions := m.root.allTransitions
  let mapped (mapper : Mapper Unit) : Machine := (m.revise mapper ()).1
  let (_, visits) := m.revise (Rule.mapper []) []
  let cleared := m.map fun p _ ↦ Edit.clearTransitions.apply p
  let idle := m.map fun p _ ↦ Edit.clearInvocations.apply p
  let looped := mapped (.appendTransitions fun data p _ ↦
    ([(TransitionConfig.to [Reference.absolute p.base.id]).onEvent "refresh"], data))
  [ ofBool "partition" (partitioned transitions),
    ofBool "delayed" (delaysApart transitions),
    ofBool "identity" (mapped .identity == m),
    ofBool "paths"
      (visits.map (fun v ↦ (v.id, v.path)) == trails [] m.root && visits.all (·.bare)),
    ofBool "clearTransitions" (cleared.root.allTransitions.isEmpty && ids cleared == ids m),
    ofBool "clearInvocations"
      (idle.root.allInvocations.isEmpty && ids idle == ids m
        && idle.root.allTransitions == transitions),
    ofBool "filterAll" (mapped (.filterTransitions fun data _ ↦ (true, data)) == m),
    ofBool "filterNone" (mapped (.filterTransitions fun data _ ↦ (false, data)) == cleared),
    ofBool "appendActions" (actionsAppended actions m (mapped (.appendActions actions))),
    overAll "selfLoops" refreshes looped.root.states,
    ofBool "roundTrip"
      (match Machine.ofConfig m.toConfig with
        | .ok again => keptByRoundTrip m again
        | .error _ => false) ]

/-- All laws of a machine. -/
def machine (actions : List Action) (g : GeneratedMachine) : List LawCount :=
  structural g ++ data g ++ engine actions g

/-- The word for a category, where it is reported. -/
def categoryWord? : Category → Option String
  | .eventOccurred => some "eventOccurred"
  | .stateDone _ => some "stateDone"
  | .invocationDone _ => some "invocationDone"
  | .invocationError _ => some "invocationError"
  | .delayDone => some "delayDone"
  | .always => some "always"
  | .wildcard => none

/-- The word for a delay. -/
def delayWord : Option Delay → String
  | some (.millis _) => "millis"
  | some (.named _) => "named"
  | none => "none"

/-- What turned up in one transition. -/
def seenInTransition (t : Transition) : List String :=
  ((categoryWord? t.category).map ("category:" ++ ·)).toList
    ++ ["targets:" ++ Decimal.text t.targets.length, "actions:" ++ Decimal.text t.actions.length,
      if t.guard.isSome then "cond:true" else "cond:false", "delay:" ++ delayWord t.delay]

/-- What turned up in a machine. -/
def seenInMachine (g : GeneratedMachine) : List String :=
  let root := g.machine.root
  root.properStates.map (fun s ↦ "nested:" ++ s.type.word)
    ++ (root.states.filter (·.doneData?.isSome)).map (fun _ ↦ "final:doneData")
    ++ root.allTransitions.flatMap seenInTransition

/-! ### Simplifying -/

/-- The trial and those that come from it by making it simpler, at most `steps` times. -/
def simplerTrials (t : Trial) : Nat → List Trial
  | 0 => [t]
  | steps + 1 =>
    match t.simpler? with
    | some simpler => t :: simplerTrials simpler steps
    | none => [t]

/-- Are two generated machines the same? -/
def sameGenerated (a b : GeneratedMachine) : Bool :=
  a.machine == b.machine && a.states == b.states && a.events == b.events
    && a.actions == b.actions && a.guards == b.guards && a.sources == b.sources

/-- Are two runs the same machine by machine? -/
def sameRun : List GeneratedMachine → List GeneratedMachine → Bool
  | [], [] => true
  | a :: as, b :: bs => sameGenerated a b && sameRun as bs
  | _, _ => false

/-- The laws of making a machine simpler: those of its structure at every step, that a second run
does the same, and that there are never more states than at first. -/
def simplifying (steps : Nat) (t again : Trial) : List LawCount :=
  let run := (simplerTrials t steps).map Trial.machine
  let second := (simplerTrials again steps).map Trial.machine
  run.flatMap structural
    ++ [ ofBool "reproducible" (sameRun run second),
      ofBool "neverMoreStates"
        (match run.head?, run.getLast? with
          | some first, some last => last.states.length ≤ first.states.length
          | _, _ => false) ]

end Laws

end Statechart
