import Statechart.Delay
import Statechart.Text.Cut

/-!
# Event names

Some events are raised by the interpreter itself, and their names say what happened: a state
completed, a service completed or failed, a delay is over. This module writes such names and the
absolute form of references to states.
-/

namespace Statechart

namespace Event

/-- The event of a transition that needs none. -/
def always : String := ""

/-- The event of a transition that any event triggers. -/
def wildcard : String := "*"

/-- What the event of a completed state starts with. -/
def doneStateLead : String := "done.state."

/-- What the event of a completed invocation starts with. -/
def doneInvokeLead : String := "done.invoke."

/-- What the event of a failed invocation starts with. -/
def errorPlatformLead : String := "error.platform."

/-- The state of this id completed. -/
def doneState (id : String) : String := doneStateLead ++ id

/-- The invocation of this id completed. -/
def doneInvoke (id : String) : String := doneInvokeLead ++ id

/-- The invocation of this id failed. -/
def errorPlatform (id : String) : String := errorPlatformLead ++ id

/-- The delay is over in the state of this id. -/
def after (delay : Delay) (id : String) : String := "xstate.after(" ++ delay.key ++ ")#" ++ id

end Event

namespace Reference

/-- The reference to the state of this id, wherever it stands. -/
def absolute (id : String) : String := "#" ++ id

/-- The id in an absolute reference. -/
def absoluteId? (reference : String) : Option String := Text.after? "#" reference

/-- What a reference says relative to the state that it is written on. -/
def relative? (reference : String) : Option String := Text.after? "." reference

end Reference

end Statechart
