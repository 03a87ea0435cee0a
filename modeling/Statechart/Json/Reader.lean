import Statechart.Json.Document
import Statechart.Json.Numeral
import Statechart.Json.Quoted

/-!
# Reading JSON text

`Reader.document` reads the first value of a text and says what is left. Strict JSON: no comments,
no trailing commas, no leading zeros; blanks are the space, the tab and the two line ends. A fault
is put where it stands, and after a malformed stretch nothing more is read.

The reader recurses on a bound for its steps, which `Reader.document` takes from the length of the
text: every value and every separator takes at least one character.
-/

namespace Statechart

namespace Reader

/-- Lists and objects may nest less deep than this. -/
def depthLimit : Nat := 128

/-- May `c` stand between the parts of a document? -/
def isBlank (c : Char) : Bool := c == ' ' || c == '\n' || c == '\t' || c == '\r'

/-- The text without the blanks at its front. -/
def skipBlank (cs : List Char) : List Char := cs.dropWhile isBlank

/-- The digits at the front of the text, and what follows them. -/
def digits (cs : List Char) : List Char × List Char :=
  (cs.takeWhile Decimal.isDigit, cs.dropWhile Decimal.isDigit)

/-- The integer part of a numeral: a zero alone, or digits that do not start with one. -/
def integerPart? (cs : List Char) : Option (List Char × List Char) :=
  match digits cs with
  | ([], _) => none
  | (['0'], rest) => some (['0'], rest)
  | ('0' :: _, _) => none
  | (ds, rest) => some (ds, rest)

/-- The fraction of a numeral, if there is one. -/
def fractionPart? (cs : List Char) : Option (Option (List Char) × List Char) :=
  match cs with
  | '.' :: cs =>
    match digits cs with
    | ([], _) => none
    | (ds, rest) => some (some ds, rest)
  | cs => some (none, cs)

/-- The digits of an exponent whose sign is known. -/
def exponentDigits? (below : Bool) (cs : List Char) :
    Option (Option (Bool × List Char) × List Char) :=
  match digits cs with
  | ([], _) => none
  | (ds, rest) => some (some (below, ds), rest)

/-- The exponent of a numeral, if there is one. -/
def exponentPart? (cs : List Char) : Option (Option (Bool × List Char) × List Char) :=
  match cs with
  | c :: cs =>
    if c = 'e' ∨ c = 'E' then
      match cs with
      | '+' :: cs => exponentDigits? false cs
      | '-' :: cs => exponentDigits? true cs
      | cs => exponentDigits? false cs
    else some (none, c :: cs)
  | [] => some (none, [])

/-- The parts of the numeral at the front of the text. -/
def numeral? (cs : List Char) : Option (Numeral.Parts × List Char) := do
  let (negative, cs) := match cs with
    | '-' :: cs => (true, cs)
    | cs => (false, cs)
  let (integer, cs) ← integerPart? cs
  let (fraction, cs) ← fractionPart? cs
  let (exponent, cs) ← exponentPart? cs
  return (⟨negative, integer, fraction, exponent⟩, cs)

/-- A number at the front of the text. -/
def number (cs : List Char) : Document × List Char :=
  match numeral? cs with
  | none => (.fault .malformed, [])
  | some (parts, rest) =>
    match parts.number? with
    | some n => (.number n, rest)
    | none => (.fault .unreadable, rest)

/-- A text at the front, whose opening quote is gone. -/
def text (cs : List Char) : Document × List Char :=
  match Quoted.read cs with
  | none => (.fault .malformed, [])
  | some ⟨some s, rest⟩ => (.text (String.ofList s), rest)
  | some ⟨none, rest⟩ => (.fault .unreadable, rest)

/-- A name at the front of the text. -/
def label (cs : List Char) : Label × List Char :=
  match cs with
  | '"' :: cs =>
    match Quoted.read cs with
    | none => (.fault .malformed, [])
    | some ⟨some s, rest⟩ => (.name (String.ofList s), rest)
    | some ⟨none, rest⟩ => (.fault .unreadable, rest)
  | _ => (.fault .malformed, [])

/-- A list or object that stands inside `depth` others. At the limit it cannot be read. -/
def nested (depth : Nat) (d : Document) : Document :=
  if depth + 1 < depthLimit then d
  else if d.grammatical then .fault .unreadable
  else .fault .malformed

mutual

/-- The value at the front of the text, inside `depth` lists and objects. -/
def value (fuel depth : Nat) (cs : List Char) : Document × List Char :=
  match fuel with
  | 0 => (.fault .malformed, [])
  | fuel + 1 =>
    match skipBlank cs with
    | 'n' :: 'u' :: 'l' :: 'l' :: rest => (.null, rest)
    | 't' :: 'r' :: 'u' :: 'e' :: rest => (.bool true, rest)
    | 'f' :: 'a' :: 'l' :: 's' :: 'e' :: rest => (.bool false, rest)
    | '"' :: rest => text rest
    | '[' :: rest =>
      match skipBlank rest with
      | ']' :: rest => (nested depth (.list []), rest)
      | rest =>
        let (ds, rest) := items fuel (depth + 1) rest
        (nested depth (.list ds), rest)
    | '\x7b' :: rest =>
      match skipBlank rest with
      | '\x7d' :: rest => (nested depth (.object []), rest)
      | rest =>
        let (ms, rest) := members fuel (depth + 1) rest
        (nested depth (.object ms), rest)
    | rest => number rest

/-- The items of a list, at least one, up to its closing bracket. -/
def items (fuel depth : Nat) (cs : List Char) : List Document × List Char :=
  match fuel with
  | 0 => ([.fault .malformed], [])
  | fuel + 1 =>
    let (d, rest) := value fuel depth cs
    match skipBlank rest with
    | ']' :: rest => ([d], rest)
    | ',' :: rest =>
      let (ds, rest) := items fuel depth rest
      (d :: ds, rest)
    | _ => ([d, .fault .malformed], [])

/-- The members of an object, at least one, up to its closing brace. -/
def members (fuel depth : Nat) (cs : List Char) : List (Label × Document) × List Char :=
  match fuel with
  | 0 => ([(.fault .malformed, .fault .malformed)], [])
  | fuel + 1 =>
    let (l, rest) := label (skipBlank cs)
    match skipBlank rest with
    | ':' :: rest =>
      let (d, rest) := value fuel depth rest
      match skipBlank rest with
      | '\x7d' :: rest => ([(l, d)], rest)
      | ',' :: rest =>
        let (ms, rest) := members fuel depth rest
        ((l, d) :: ms, rest)
      | _ => ([(l, d), (.fault .malformed, .fault .malformed)], [])
    | _ => ([(l, .fault .malformed)], [])

end

/-- The first value of a text, and what follows it. -/
def document (cs : List Char) : Document × List Char := value (2 * cs.length + 2) 0 cs

end Reader

end Statechart
