import Statechart.Generate.Pool
import Statechart.State

/-!
# Shapes

The shape of a state says what kind it is, what it would like to be called and which shapes are
below it. Laying a shape out gives every state an id of its own: the first state to ask for a name
gets it, parents before children.
-/

namespace Statechart

/-- The shape of a state and of the states below it. -/
structure Shape where
  type : StateType
  /-- The name to make the id from. -/
  name : String
  children : List Shape

/-- A shape whose states have their ids. -/
structure Layout where
  id : String
  type : StateType
  children : List Layout

namespace Shape

/-- A shape without children. -/
def leaf (type : StateType) (name : String) : Shape := ⟨type, name, []⟩

instance : Inhabited Shape := ⟨leaf .atomic ""⟩

mutual

/-- The number of states. -/
def size : Shape → Nat
  | ⟨_, _, children⟩ => sizeAll children + 1

/-- The number of states of all shapes. -/
def sizeAll : List Shape → Nat
  | [] => 0
  | s :: ss => size s + sizeAll ss

end

mutual

/-- How far the lowest state is below the top. -/
def depth : Shape → Nat
  | ⟨_, _, children⟩ => depthAll children

/-- How far the lowest state of the shapes is below the state above them. -/
def depthAll : List Shape → Nat
  | [] => 0
  | s :: ss => max (depth s + 1) (depthAll ss)

end

mutual

/-- The shape and all shapes below it, each before those below. -/
def preorder : Shape → List Shape
  | ⟨type, name, children⟩ => ⟨type, name, children⟩ :: preorderAll children

/-- The shapes and all shapes below them. -/
def preorderAll : List Shape → List Shape
  | [] => []
  | s :: ss => preorder s ++ preorderAll ss

end

mutual

/-- Give ids to the states of a shape. -/
def place (pool : NamePool) : Shape → Layout × NamePool
  | ⟨type, name, children⟩ =>
    let (id, pool) := pool.claim name
    let (below, pool) := placeAll pool children
    (⟨id, type, below⟩, pool)

/-- Give ids to the states of all shapes. -/
def placeAll (pool : NamePool) : List Shape → List Layout × NamePool
  | [] => ([], pool)
  | s :: ss =>
    let (l, pool) := place pool s
    let (ls, pool) := placeAll pool ss
    (l :: ls, pool)

end

/-- Give ids to the states of a shape, all of them free. -/
def layout (s : Shape) : Layout := (place .empty s).1

end Shape

namespace Layout

mutual

/-- The ids and types of the states, each state before those below it. -/
def preorder : Layout → List (String × StateType)
  | ⟨id, type, children⟩ => (id, type) :: preorderAll children

/-- The ids and types of the states of all layouts. -/
def preorderAll : List Layout → List (String × StateType)
  | [] => []
  | l :: ls => preorder l ++ preorderAll ls

end

/-- The ids of all states but the root. -/
def properIds (l : Layout) : List String := (l.preorder.drop 1).map Prod.fst

end Layout

end Statechart
