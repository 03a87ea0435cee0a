import Statechart.Text.Cut

/-!
# Names for generated machines

Which names a generated state or event may have. A state name must not read as a reference, and an
event name must not be one that objects of the interpreting libraries have already.
-/

namespace Statechart

namespace Name

/-- Can a state be called this? -/
def isState (name : String) : Bool :=
  name != "" && name != "__proto__" && !Text.startsWith "#" name && !Text.startsWith "." name

/-- Names that events must not have. -/
def reserved : List String := ["__proto__", "constructor", "valueOf", "toString"]

/-- Can an event be called this? -/
def isEvent (name : String) : Bool := name != "" && !reserved.contains name

end Name

end Statechart
