import Statechart.Config
import Statechart.Event

/-!
# The index of a config

A config nests its states under keys, and a state has an id besides: its own, or the id of its
parent and its key with a point between them. The index lists the id and the key path of every
state, each before its children, and answers in both directions. Where two states have the same id
the first one counts.

`Index.resolve?` reads a reference. `#id` is the state of that id or, if there is none, what is
reached by keys from the longest id that ends before a point. `.key` starts at the state that the
reference is written on, and a bare `key` at its parent; both go on from point to point.
-/

namespace Statechart

/-- The ids and key paths of the states of a config, each state before its children. -/
structure Index where
  entries : List (String × List String)

namespace Index

/-- The id of the child that a state declares under `key`. -/
def childId (parent key : String) (child : StateConfig) : String :=
  child.id.getD (parent ++ "." ++ key)

mutual

/-- The entries of a state and all below it. -/
def entriesOf (id : String) (path : List String) : StateConfig → List (String × List String)
  | ⟨_, states⟩ => (id, path) :: entriesBelow id path states

/-- The entries of the children of a state and all below them. -/
def entriesBelow (parent : String) (path : List String) :
    List (String × StateConfig) → List (String × List String)
  | [] => []
  | (key, c) :: cs =>
    entriesOf (childId parent key c) (path ++ [key]) c ++ entriesBelow parent path cs

end

/-- The index of the states declared below the state `parent`, which is in it at the empty path. -/
def below (parent : String) (states : List (String × StateConfig)) : Index :=
  ⟨(parent, []) :: entriesBelow parent [] states⟩

variable (ix : Index)

/-- The path of the state of this id. -/
def path? (id : String) : Option (List String) := ix.entries.lookup id

/-- The id of the state at this path. -/
def id? (path : List String) : Option String :=
  (ix.entries.find? (·.2 == path)).map Prod.fst

/-- The ids in the list that stand earlier in it, or in `seen`. -/
def repeated (seen : List String) : List String → List String
  | [] => []
  | id :: ids => if seen.contains id then id :: repeated seen ids else repeated (id :: seen) ids

/-- The ids that an earlier state has already, once for each state. -/
def duplicates : List String := repeated [] (ix.entries.map Prod.fst)

/-- The state that is reached from `path` by the keys in `keys`, which have points between them. -/
def descend? (path : List String) (keys : String) : Option String :=
  ix.id? (path ++ Text.split '.' keys)

/-- The id of the state that a reference stands for, written on the state at `source`. -/
def resolve? (source : List String) (reference : String) : Option String :=
  match Reference.absoluteId? reference with
  | some name =>
    match ix.path? name with
    | some _ => some name
    | none =>
      match (Text.cuts '.' name).findSome? fun (id, keys) ↦ (ix.path? id).map (·, keys) with
      | some (path, keys) => ix.descend? path keys
      | none => none
  | none =>
    match Reference.relative? reference with
    | some keys => ix.descend? source keys
    | none => if source.isEmpty then none else ix.descend? source.dropLast reference

end Index

end Statechart
