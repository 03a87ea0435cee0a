import Statechart.Json.Numeral
import Statechart.Json.Quoted

/-!
# Compact JSON text

`Json.chars` writes a value without blanks, the members of an object in the order in which they
stand. `Json.depth` counts the lists and objects that a written value nests.
-/

namespace Statechart

namespace Json

mutual

/-- The compact text of a value. -/
def chars : Json → List Char
  | .null => ['n', 'u', 'l', 'l']
  | .bool true => ['t', 'r', 'u', 'e']
  | .bool false => ['f', 'a', 'l', 's', 'e']
  | .number n => n.chars
  | .text s => Quoted.write s
  | .list items => '[' :: (itemsChars items ++ [']'])
  | .object members => '\x7b' :: (membersChars members ++ ['\x7d'])

/-- The items of a list, with commas between them. -/
def itemsChars : List Json → List Char
  | [] => []
  | x :: xs => chars x ++ moreItemsChars xs

/-- The items of a list, with a comma before each. -/
def moreItemsChars : List Json → List Char
  | [] => []
  | x :: xs => ',' :: (chars x ++ moreItemsChars xs)

/-- The members of an object, with commas between them. -/
def membersChars : List (String × Json) → List Char
  | [] => []
  | (k, x) :: ms => Quoted.write k ++ ':' :: (chars x ++ moreMembersChars ms)

/-- The members of an object, with a comma before each. -/
def moreMembersChars : List (String × Json) → List Char
  | [] => []
  | (k, x) :: ms => ',' :: (Quoted.write k ++ ':' :: (chars x ++ moreMembersChars ms))

end

/-- The compact text of a value. -/
def print (j : Json) : String := String.ofList j.chars

mutual

/-- How many lists and objects stand inside one another. -/
def depth : Json → Nat
  | .list items => itemsDepth items + 1
  | .object members => membersDepth members + 1
  | _ => 0

/-- The greatest depth of the items. -/
def itemsDepth : List Json → Nat
  | [] => 0
  | x :: xs => max (depth x) (itemsDepth xs)

/-- The greatest depth of the members. -/
def membersDepth : List (String × Json) → Nat
  | [] => 0
  | (_, x) :: ms => max (depth x) (membersDepth ms)

end

end Json

end Statechart
