import Statechart.State

/-!
# Walking a tree of states

A walk gives the states of a tree one at a time, each before its children and the children in the
order of their declaration. It keeps the trees that are still to come on a stack, the next one on
top, so it can be stopped and resumed anywhere.

`State.preorder` is the same order by recursion on the tree.
-/

namespace Statechart

namespace State

mutual

/-- The state, then all states below it, child by child. -/
def preorder : State → List State
  | ⟨f, k⟩ => ⟨f, k⟩ :: preorderKind k

/-- All states below a state of this kind. -/
def preorderKind : StateKind State → List State
  | .compound _ states => preorderAll states
  | .parallel states => preorderAll states
  | _ => []

/-- The trees of the list, one after the other. -/
def preorderAll : List State → List State
  | [] => []
  | s :: ss => preorder s ++ preorderAll ss

end

theorem preorderKind_eq (k : StateKind State) : preorderKind k = preorderAll k.children := by
  cases k <;> rfl

theorem preorder_eq (s : State) : s.preorder = s :: preorderAll s.children := by
  cases s with
  | mk f k => rw [preorder, preorderKind_eq]; rfl

theorem preorderAll_append (ss ts : List State) :
    preorderAll (ss ++ ts) = preorderAll ss ++ preorderAll ts := by
  induction ss with
  | nil => rfl
  | cons s ss ih => simp [preorderAll, ih]

end State

/-- A walk that is under way: the trees that are still to come, the next one first. -/
structure Walk where
  stack : List State

namespace Walk

/-- The walk over a tree, its root included. -/
def tree (root : State) : Walk := ⟨[root]⟩

/-- The walk over a tree without its root. -/
def below (root : State) : Walk := ⟨root.children⟩

/-- The next state and the walk from there on. -/
def next? (w : Walk) : Option (State × Walk) :=
  match w.stack with
  | [] => none
  | s :: rest => some (s, ⟨s.children ++ rest⟩)

/-- How many states are still to come. -/
def size (w : Walk) : Nat := (State.preorderAll w.stack).length

theorem size_of_next? {w v : Walk} {s : State} (h : w.next? = some (s, v)) : v.size < w.size := by
  obtain ⟨stack⟩ := w
  cases stack with
  | nil => simp [next?] at h
  | cons t rest =>
    simp only [next?, Option.some.injEq, Prod.mk.injEq] at h
    obtain ⟨rfl, rfl⟩ := h
    simp [size, State.preorderAll, State.preorderAll_append, State.preorder_eq]

/-- All states that are still to come, in order. -/
def toList (w : Walk) : List State :=
  match _h : w.next? with
  | none => []
  | some (s, v) => s :: toList v
termination_by w.size
decreasing_by exact size_of_next? _h

end Walk

namespace State

/-- All states of the tree. -/
def states (root : State) : List State := (Walk.tree root).toList

/-- All states of the tree but its root. -/
def properStates (root : State) : List State := (Walk.below root).toList

end State

/-- The first state of the machine that has this id. -/
def Machine.find? (m : Machine) (id : String) : Option State :=
  m.root.states.find? (·.id == id)

end Statechart
