import Statechart.Transition

/-!
# States

A machine is a tree of states. What kind a state is decides whether it has children: compound and
parallel states do, the other kinds are leaves, so `State.children` is empty for them by
construction. Everything else that a state carries is a *facet*.
-/

namespace Statechart

/-- The five kinds of states, without what belongs to each. -/
inductive StateType where
  | atomic
  | compound
  | parallel
  | final
  | history
deriving DecidableEq

/-- The word for a kind of state. -/
def StateType.word : StateType → String
  | .atomic => "atomic"
  | .compound => "compound"
  | .parallel => "parallel"
  | .final => "final"
  | .history => "history"

/-- All kinds of states. -/
def StateType.every : List StateType := [.atomic, .compound, .parallel, .final, .history]

/-- The kind of state that a word stands for. -/
def StateType.ofWord? (word : String) : Option StateType :=
  StateType.every.find? (·.word == word)

/-- How much a history state recalls: the child that was active, or all below it as well. -/
inductive HistoryKind where
  | shallow
  | deep
deriving DecidableEq

/-- The word for a kind of history. -/
def HistoryKind.word : HistoryKind → String
  | .shallow => "shallow"
  | .deep => "deep"

/-- The kind of history that a word stands for. -/
def HistoryKind.ofWord? (word : String) : Option HistoryKind :=
  [HistoryKind.shallow, .deep].find? (·.word == word)

/-- What a final state computes for its completion event, from the context and the event that led
to it. Such mappers are never written. Two of them are the same if they have the same identity,
whatever they compute. -/
structure DoneData where
  identity : Nat
  compute : Json → Json → Json

namespace DoneData

/-- A mapper that always gives `value`. -/
def constant (identity : Nat) (value : Json) : DoneData := ⟨identity, fun _ _ ↦ value⟩

instance : BEq DoneData := ⟨fun a b ↦ a.identity == b.identity⟩

/-- The text that stands for a mapper in diagnostics. It shows nothing of the mapper. -/
def debugText (_ : DoneData) : String := "DoneData(..)"

end DoneData

/-- The kind of a state, with what only that kind has. The children are of type `σ`. -/
inductive StateKind (σ : Type) where
  /-- A leaf. -/
  | atomic
  /-- One child is active at a time, at first the one whose key is `initial`. -/
  | compound (initial : String) (states : List σ)
  /-- All children are active at the same time. -/
  | parallel (states : List σ)
  /-- A leaf that completes its parent. -/
  | final (doneData : Option DoneData)
  /-- A leaf that recalls what was active in its parent. -/
  | history (kind : HistoryKind)

namespace StateKind

variable {σ : Type}

/-- The kind without what belongs to it. -/
def type : StateKind σ → StateType
  | .atomic => .atomic
  | .compound .. => .compound
  | .parallel _ => .parallel
  | .final _ => .final
  | .history _ => .history

/-- The children, in the order of their declaration. -/
def children : StateKind σ → List σ
  | .compound _ states => states
  | .parallel states => states
  | _ => []

/-- The same kind without children. -/
def bare : StateKind σ → StateKind σ
  | .compound initial _ => .compound initial []
  | .parallel _ => .parallel []
  | kind => kind

end StateKind

/-- What a state of any kind has. -/
structure Facets where
  /-- Unique in the machine. -/
  id : String
  /-- Unique among the children of one state. -/
  key : String
  entry : List Action
  exit : List Action
  invocations : List Invocation
  /-- The transitions that this state declares, in the order of their priority. -/
  transitions : List Transition
  tags : List String
  metadata : Option Json
  description : Option String
deriving BEq

/-- The facets of a state that has nothing but its names. -/
def Facets.named (id key : String) : Facets := ⟨id, key, [], [], [], [], [], none, none⟩

/-- A state and, through its kind, the states below it. -/
structure State extends Facets where
  kind : StateKind State

namespace State

instance : Inhabited State := ⟨⟨Facets.named "" "", .atomic⟩⟩

/-- The state that has nothing but its names and its kind. -/
def of (id key : String) (kind : StateKind State) : State := ⟨Facets.named id key, kind⟩

/-- The kind without what belongs to it. -/
def type (s : State) : StateType := s.kind.type

/-- The children, in the order of their declaration. -/
def children (s : State) : List State := s.kind.children

/-- The first child of the given key. -/
def child? (s : State) (key : String) : Option State := s.children.find? (·.key == key)

/-- The key of the initial child, for a compound state. -/
def initial? (s : State) : Option String :=
  match s.kind with
  | .compound initial _ => some initial
  | _ => none

/-- How much a history state recalls. -/
def history? (s : State) : Option HistoryKind :=
  match s.kind with
  | .history kind => some kind
  | _ => none

/-- The mapper of a final state. -/
def doneData? (s : State) : Option DoneData :=
  match s.kind with
  | .final doneData => doneData
  | _ => none

/-- Does the state have no children? -/
def isLeaf (s : State) : Bool := s.children.isEmpty

/-- The state with its children taken away; it stays of its kind. -/
def bare (s : State) : State := { s with kind := s.kind.bare }

/-! ### Sameness -/

mutual

/-- Do two states, and all below them, count as equal? -/
def same : State → State → Bool
  | ⟨f, k⟩, ⟨g, l⟩ => f == g && sameKind k l

/-- Do two kinds of states count as equal? -/
def sameKind : StateKind State → StateKind State → Bool
  | .atomic, .atomic => true
  | .compound i ss, .compound j ts => i == j && sameAll ss ts
  | .parallel ss, .parallel ts => sameAll ss ts
  | .final d, .final e => d == e
  | .history h, .history k => h == k
  | _, _ => false

/-- Are two lists of states the same state by state? -/
def sameAll : List State → List State → Bool
  | [], [] => true
  | s :: ss, t :: ts => same s t && sameAll ss ts
  | _, _ => false

end

instance : BEq State := ⟨same⟩

end State

/-- A machine: its root state and the context that it starts with. -/
structure Machine where
  root : State
  context : Json
deriving BEq

end Statechart
