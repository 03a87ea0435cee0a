import Statechart.State.Walk

/-!
# What a tree of states declares

The transitions, actions, guards and invocations of all states of a tree, state by state in the
order of the walk.
-/

namespace Statechart

namespace State

/-- The actions of one state: on entry, on exit, then those of its transitions. -/
def ownActions (s : State) : List Action :=
  s.entry ++ s.exit ++ s.transitions.flatMap (·.actions)

/-- Every transition of the tree. -/
def allTransitions (root : State) : List Transition := root.states.flatMap (·.transitions)

/-- Every action of the tree. -/
def allActions (root : State) : List Action := root.states.flatMap ownActions

/-- The guard of every transition that has one. -/
def allGuards (root : State) : List Guard := root.allTransitions.filterMap (·.guard)

/-- Every invocation of the tree. -/
def allInvocations (root : State) : List Invocation := root.states.flatMap (·.invocations)

end State

end Statechart
