import Statechart.Number.Binary64

/-!
# JSON values

The values that a document can hold. The members of an object stand in the order in which they are
written; `Json.ofMembers` builds the canonical object, with its names in ascending order and the
last value given to each. Names are compared code point by code point, which is also the order of
their UTF-8 bytes.

Numbers are integers or finite doubles, and an integer is never equal to a double. `Json.same`
decides whether two values count as equal: it is equality but for the two zeros, which are told
apart when they are written and not when they are compared.
-/

namespace Statechart

/-- A number: an integer or a finite double. -/
inductive Number where
  | int (i : Int)
  | real (x : Binary64)
deriving DecidableEq

/-- Do two numbers count as equal? -/
def Number.same : Number → Number → Bool
  | .int i, .int j => i == j
  | .real x, .real y => x.sameValue y
  | _, _ => false

/-- A JSON value. -/
inductive Json where
  | null
  | bool (b : Bool)
  | number (n : Number)
  | text (s : String)
  | list (items : List Json)
  | object (members : List (String × Json))

namespace Json

instance : Inhabited Json := ⟨.null⟩

/-- An integer as a value. -/
def ofInt (i : Int) : Json := .number (.int i)

/-- A natural number as a value. -/
def ofNat (n : Nat) : Json := .number (.int n)

/-- A list of texts as a value. -/
def ofTexts (ss : List String) : Json := .list (ss.map .text)

/-- Is this the value `null`? -/
def isNull : Json → Bool
  | .null => true
  | _ => false

/-- The value under `name` in an object. -/
def member? (name : String) : Json → Option Json
  | .object ms => ms.lookup name
  | _ => none

/-! ### Canonical objects -/

/-- Put `value` under `name` into members in ascending order of their names. A value that already
has this name is replaced. -/
def insertMember {α : Type} (name : String) (value : α) : List (String × α) → List (String × α)
  | [] => [(name, value)]
  | (k, v) :: ms =>
    if name < k then (name, value) :: (k, v) :: ms
    else if name = k then (name, value) :: ms
    else (k, v) :: insertMember name value ms

/-- The members in ascending order of their names, each name with the last value given to it. -/
def sortMembers {α : Type} (ms : List (String × α)) : List (String × α) :=
  ms.foldl (fun sorted m ↦ insertMember m.1 m.2 sorted) []

/-- The canonical object with these members. -/
def ofMembers (ms : List (String × Json)) : Json := .object (sortMembers ms)

/-! ### Sameness -/

mutual

/-- Do two values count as equal? -/
def same : Json → Json → Bool
  | .null, .null => true
  | .bool a, .bool b => a == b
  | .number m, .number n => m.same n
  | .text s, .text t => s == t
  | .list xs, .list ys => sameItems xs ys
  | .object ms, .object ns => sameMembers ms ns
  | _, _ => false

/-- Are two lists the same item by item? -/
def sameItems : List Json → List Json → Bool
  | [], [] => true
  | x :: xs, y :: ys => same x y && sameItems xs ys
  | _, _ => false

/-- Are two lists of members the same member by member? -/
def sameMembers : List (String × Json) → List (String × Json) → Bool
  | [], [] => true
  | (k, x) :: ms, (l, y) :: ns => k == l && same x y && sameMembers ms ns
  | _, _ => false

end

instance : BEq Json := ⟨same⟩

end Json

end Statechart
