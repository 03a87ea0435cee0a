import Statechart.Json.Value

/-!
# Actions, guards and invocations

A definition never holds behaviour. It names the action, guard or service that an interpreter looks
up when it runs, with parameters that are passed through as they are.
-/

namespace Statechart

/-- An action, run on entry, on exit or when a transition is taken. -/
structure Action where
  /-- The name of the implementation. -/
  name : String
  /-- Parameters by name, in ascending order of their names. -/
  params : List (String × Json)
deriving BEq

/-- The action of the given name without parameters. -/
def Action.named (name : String) : Action := ⟨name, []⟩

/-- A condition that a transition is guarded by. -/
structure Guard where
  /-- The name of the implementation. -/
  name : String
  /-- Parameters by name, in ascending order of their names. -/
  params : List (String × Json)
deriving BEq

/-- The guard of the given name without parameters. -/
def Guard.named (name : String) : Guard := ⟨name, []⟩

/-- A service that runs while its state is active. Its completion and its failure are events that
carry its id. -/
structure Invocation where
  id : String
  /-- The name of the service. -/
  source : String
  /-- Are events passed on to the service? -/
  autoForward : Bool
  metadata : Option Json
deriving BEq

/-- The invocation of the service `source` under the given id. -/
def Invocation.of (id source : String) : Invocation := ⟨id, source, false, none⟩

end Statechart
