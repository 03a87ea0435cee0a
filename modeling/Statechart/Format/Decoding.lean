import Statechart.Json.Document
import Statechart.Json.Reader
import Statechart.Keyed

/-!
# Decoding documents

From documents to values of a domain. Decoding follows the order of the text, and the first thing
that goes wrong is the answer: a fault of the document, a field that is given twice, a word that is
not known. What is missing shows only at the end.

`Record` describes a group of named fields. Such a group is written as an object, whose unknown
members are skipped, or as a list of its fields in their order, whose last ones may be left out if
they are not required.

A choice between several forms is made on a document that is held whole, so it must be sound.
-/

namespace Statechart

/-- The values that may be written in several forms. -/
inductive Choice where
  | oneOrMany
  | namedOr
  | delay
deriving DecidableEq

/-- The name by which a failed choice is reported. -/
def Choice.name : Choice → String
  | .oneOrMany => "OneOrMany"
  | .namedOr => "NamedOr"
  | .delay => "Delay"

/-- Why a text could not be decoded. -/
inductive DecodeError where
  /-- The text is faulty, or some value is of the wrong kind. -/
  | invalid
  | missingField (name : String)
  | duplicateField (name : String)
  | unknownVariant (word : String)
  /-- None of the forms of a choice fits. -/
  | noVariant (choice : Choice)
deriving DecidableEq

/-- What is said about the error, if anything is. -/
def DecodeError.message? : DecodeError → Option String
  | .invalid => none
  | .missingField name => some ("missing field `" ++ name ++ "`")
  | .duplicateField name => some ("duplicate field `" ++ name ++ "`")
  | .unknownVariant word => some ("unknown variant `" ++ word ++ "`")
  | .noVariant choice => some ("data did not match any variant of untagged enum " ++ choice.name)

/-- The result of decoding. -/
abbrev Decoded (α : Type) := Except DecodeError α

/-- How the document comes to the decoder. The forms of an enumeration word differ a little. -/
inductive Medium where
  /-- Read from a text as it is decoded. -/
  | streamed
  /-- Held whole before it is decoded. -/
  | held
  /-- Taken from a value. -/
  | inline
deriving DecidableEq

namespace Decoding

variable {α : Type}

/-- A text. -/
def text : Document → Decoded String
  | .text s => .ok s
  | _ => .error .invalid

/-- A truth value. -/
def bool : Document → Decoded Bool
  | .bool b => .ok b
  | _ => .error .invalid

/-- Any value. -/
def value (d : Document) : Decoded Json :=
  match d.value? with
  | some j => .ok j
  | none => .error .invalid

/-- A value that `null` leaves out. -/
def optional (read : Document → Decoded α) : Document → Decoded (Option α)
  | .null => .ok none
  | d => (read d).map some

/-- Every item in turn. -/
def all (read : Document → Decoded α) : List Document → Decoded (List α)
  | [] => .ok []
  | d :: ds => do
    let x ← read d
    let xs ← all read ds
    return x :: xs

/-- A list. -/
def list (read : Document → Decoded α) : Document → Decoded (List α)
  | .list ds => all read ds
  | _ => .error .invalid

/-- Every member in turn, put under its name. -/
def allEntries (read : Document → Decoded α) (kept : List (String × α)) :
    List (Label × Document) → Decoded (List (String × α))
  | [] => .ok kept
  | (.name k, d) :: ms => do
    let x ← read d
    allEntries read (Keyed.put k x kept) ms
  | (.fault _, _) :: _ => .error .invalid

/-- An object whose names are keys. A key that is repeated keeps its first position and takes the
last value. -/
def entries (read : Document → Decoded α) : Document → Decoded (List (String × α))
  | .object ms => allEntries read [] ms
  | _ => .error .invalid

/-- A list, or else a single item. -/
def oneOrMany (read : Document → Decoded α) (d : Document) : Decoded (List α) :=
  if d.sound then
    match list read d with
    | .ok xs => .ok xs
    | .error _ =>
      match read d with
      | .ok x => .ok [x]
      | .error _ => .error (.noVariant .oneOrMany)
  else .error .invalid

/-- The value of a word of an enumeration. -/
def known (variant? : String → Option α) (word : String) : Decoded α :=
  match variant? word with
  | some x => .ok x
  | none => .error (.unknownVariant word)

/-- A word of an enumeration. It may also be written as an object with the word for its only name.
In a text that is read as it is decoded the word is looked up before the rest of the object is
seen; an object that is held may carry an empty object in the place of `null`. -/
def word (medium : Medium) (variant? : String → Option α) : Document → Decoded α
  | .text s => known variant? s
  | .object ((.name k, d) :: ms) =>
    match medium, d, ms with
    | .streamed, d, ms => do
      let x ← known variant? k
      match d, ms with
      | .null, [] => return x
      | _, _ => .error .invalid
    | .held, .object [], [] => known variant? k
    | _, .null, [] => known variant? k
    | _, _, [] => do
      let _ ← known variant? k
      .error .invalid
    | _, _, _ => .error .invalid
  | _ => .error .invalid

/-- Decode the first value of a text. Nothing but blanks may follow it. -/
def document (decode : Document → Decoded α) (s : String) : Decoded α :=
  let (d, rest) := Reader.document s.toList
  match decode d with
  | .ok x => if rest.all Reader.isBlank then .ok x else .error .invalid
  | .error e => .error e

end Decoding

/-- A group of named fields. -/
structure Record (α : Type) where
  /-- The names of the fields, in their order. -/
  fields : List String
  /-- The fields that may not be left out. -/
  required : List String
  /-- The group before any field is read. -/
  start : α
  /-- Read the field of the given name. -/
  put : String → Document → α → Decoded α

namespace Record

variable {α : Type} (r : Record α)

/-- The result, once the fields `seen` are read. -/
def finish (seen : List String) (x : α) : Decoded α :=
  match r.required.find? (!seen.contains ·) with
  | some name => .error (.missingField name)
  | none => .ok x

/-- Read the members of an object. -/
def members (seen : List String) (x : α) : List (Label × Document) → Decoded α
  | [] => r.finish seen x
  | (.fault _, _) :: _ => .error .invalid
  | (.name k, d) :: ms =>
    if r.fields.contains k then
      if seen.contains k then .error (.duplicateField k)
      else do
        let x ← r.put k d x
        members (k :: seen) x ms
    else if d.grammatical then members seen x ms
    else .error .invalid

/-- Read the items of a list as the fields of the given names. -/
def positional (x : α) : List String → List Document → Decoded α
  | names, [] => if names.any r.required.contains then .error .invalid else .ok x
  | [], _ :: _ => .error .invalid
  | name :: names, d :: ds => do
    let x ← r.put name d x
    positional x names ds

/-- Read the group. -/
def decode : Document → Decoded α
  | .object ms => r.members [] r.start ms
  | .list ds => r.positional r.start r.fields ds
  | _ => .error .invalid

end Record

end Statechart
