import Statechart.State
import Statechart.Text.Decimal

/-!
# Structural problems

What can be wrong with the structure of a machine config. An import reports all problems at once,
in the order in which they are found.
-/

namespace Statechart

/-- A structural problem of a machine config. -/
inductive Problem where
  /-- A target that is no state. -/
  | unknownTarget (stateId target : String)
  /-- A compound state that does not say where it starts. -/
  | missingInitial (stateId : String)
  /-- A compound state that starts in none of its children. -/
  | unknownInitial (stateId initial : String)
  /-- An id that an earlier state has already. -/
  | duplicateId (id : String)
  /-- A parallel state without children. -/
  | emptyParallel (stateId : String)
  /-- A leaf with children. -/
  | unexpectedChildren (stateId : String) (type : StateType)
deriving DecidableEq

namespace Problem

/-- What is said about the problem. -/
def text : Problem → String
  | .unknownTarget stateId target =>
    "Transition target '" ++ target ++ "' on state '" ++ stateId
      ++ "' does not resolve to any state"
  | .missingInitial stateId =>
    "Compound state '" ++ stateId ++ "' has children but no initial state"
  | .unknownInitial stateId initial =>
    "Initial state '" ++ initial ++ "' of '" ++ stateId ++ "' is not one of its children"
  | .duplicateId id => "State id '" ++ id ++ "' is used by more than one state"
  | .emptyParallel stateId => "Parallel state '" ++ stateId ++ "' has no regions"
  | .unexpectedChildren stateId type =>
    type.word ++ " state '" ++ stateId ++ "' cannot have child states"

/-- What is said about all problems of a config. -/
def summary (problems : List Problem) : String :=
  "invalid machine config (" ++ Decimal.text problems.length ++ " problems)"
    ++ String.join (problems.map fun p ↦ "\n  - " ++ p.text)

end Problem

end Statechart
