import Statechart.Json.Value

/-!
# Documents

What a JSON text says, as far as it can be read. A text is read while it is decoded, so that the
first fault in the order of the text is the one that is reported. A `Document` therefore keeps a
fault at the place where it stands: a value, a name or the end of a list or object may be a
`Fault`.

A `malformed` stretch breaks the grammar; nothing can be said of what follows it. An `unreadable`
one is grammatical and stands for nothing that can be held: text with half of a surrogate pair, a
number beyond the doubles, or the 128th of nested lists and objects. Fields that are skipped may
be unreadable, whatever is held must be sound.
-/

namespace Statechart

/-- Why a stretch of text cannot be read. -/
inductive Fault where
  /-- Grammatical, but it stands for nothing that can be held. -/
  | unreadable
  /-- It breaks the grammar. -/
  | malformed
deriving DecidableEq

/-- The name of a member as it stands in the text. -/
inductive Label where
  | name (s : String)
  | fault (f : Fault)
deriving DecidableEq

/-- What a JSON text says, with its faults in place. -/
inductive Document where
  | null
  | bool (b : Bool)
  | number (n : Number)
  | text (s : String)
  | list (items : List Document)
  | object (members : List (Label × Document))
  | fault (f : Fault)

namespace Document

instance : Inhabited Document := ⟨.null⟩

/-- Is the name free of faults but for the allowed ones? -/
def labelIs (allowed : Fault → Bool) : Label → Bool
  | .name _ => true
  | .fault f => allowed f

mutual

/-- Are all faults in the document among the allowed ones? -/
def free (allowed : Fault → Bool) : Document → Bool
  | .list items => freeItems allowed items
  | .object members => freeMembers allowed members
  | .fault f => allowed f
  | _ => true

/-- Are all faults in the items among the allowed ones? -/
def freeItems (allowed : Fault → Bool) : List Document → Bool
  | [] => true
  | d :: ds => free allowed d && freeItems allowed ds

/-- Are all faults in the members among the allowed ones? -/
def freeMembers (allowed : Fault → Bool) : List (Label × Document) → Bool
  | [] => true
  | (l, d) :: ms => labelIs allowed l && free allowed d && freeMembers allowed ms

end

/-- Can the document be skipped? It must be grammatical. -/
def grammatical (d : Document) : Bool := d.free (· == .unreadable)

/-- Can the document be held? It must have no fault at all. -/
def sound (d : Document) : Bool := d.free fun _ ↦ false

mutual

/-- The value that a document holds, if it is sound. Objects become canonical. -/
def value? : Document → Option Json
  | .null => some .null
  | .bool b => some (.bool b)
  | .number n => some (.number n)
  | .text s => some (.text s)
  | .list items => (values? items).map .list
  | .object members => (memberValues? members).map Json.ofMembers
  | .fault _ => none

/-- The values of the items. -/
def values? : List Document → Option (List Json)
  | [] => some []
  | d :: ds => (value? d).bind fun x ↦ (values? ds).map (x :: ·)

/-- The names and values of the members. -/
def memberValues? : List (Label × Document) → Option (List (String × Json))
  | [] => some []
  | (.name k, d) :: ms => (value? d).bind fun x ↦ (memberValues? ms).map ((k, x) :: ·)
  | (.fault _, _) :: _ => none

end

mutual

/-- The document of a value. -/
def ofJson : Json → Document
  | .null => .null
  | .bool b => .bool b
  | .number n => .number n
  | .text s => .text s
  | .list items => .list (ofItems items)
  | .object members => .object (ofMembers members)

/-- The documents of the items. -/
def ofItems : List Json → List Document
  | [] => []
  | x :: xs => ofJson x :: ofItems xs

/-- The labelled documents of the members. -/
def ofMembers : List (String × Json) → List (Label × Document)
  | [] => []
  | (k, x) :: ms => (.name k, ofJson x) :: ofMembers ms

end

end Document

end Statechart
