import Statechart.Import.Build
import Statechart.Revision.Edit

/-!
# Revising a tree of states

A mapper sees every state once, each before its children, with the revised states above it. It
may carry data of its own from state to state.

The children of a revised state are its revised children and those declared for it. A declared
child takes the place of the child that has its key, and comes at the end otherwise; no mapper sees
it. An atomic state that gets children becomes compound, and a leaf of another kind keeps none.
-/

namespace Statechart

/-- What decides on the changes of each state: from the data of the mapper, the pending state, and
the revised states above it, the root first, each without its children. -/
abbrev Mapper (σ : Type) := σ → PendingState → List State → PendingState × σ

namespace State

/-- Give children to a revised state. -/
def attach (s : State) (initial : Option String) (children : List State) : State :=
  match s.kind with
  | .compound key _ => { s with kind := .compound key children }
  | .parallel _ => { s with kind := .parallel children }
  | .atomic =>
    match children with
    | [] => s
    | first :: _ => { s with kind := .compound (initial.getD first.key) children }
  | _ => s

/-- The children that are declared for a revised state, under their keys. -/
def declaredChildren (s : PendingState.Settled) : List (String × State) :=
  match s.declared with
  | some states => (Import.declared s.state.id states).map fun c ↦ (c.key, c)
  | none => []

variable {σ : Type} (mapper : Mapper σ)

mutual

/-- Revise a state and all below it. -/
def revise (path : List State) (data : σ) : State → State × σ
  | ⟨f, k⟩ =>
    let (pending, data) := mapper data (PendingState.of ⟨f, k⟩) path
    let settled := pending.settle
    let (children, data) :=
      reviseKind (path ++ [settled.state]) (declaredChildren settled) data k
    (settled.state.attach settled.initial children, data)

/-- Revise the children of a state of this kind and put the declared ones among them. -/
def reviseKind (path : List State) (declared : List (String × State)) (data : σ) :
    StateKind State → List State × σ
  | .compound _ states => reviseAll path declared data states
  | .parallel states => reviseAll path declared data states
  | _ => (declared.map Prod.snd, data)

/-- Revise states one after the other. A declared state takes the place of the one that has its key,
and those that are left come at the end. -/
def reviseAll (path : List State) (declared : List (String × State)) (data : σ) :
    List State → List State × σ
  | [] => (declared.map Prod.snd, data)
  | ⟨f, k⟩ :: ss =>
    let (mapped, data) := revise path data ⟨f, k⟩
    let (child, declared) := (Keyed.take? f.key declared).getD (mapped, declared)
    let (rest, data) := reviseAll path declared data ss
    (child :: rest, data)

end

end State

/-- Revise a machine. The context stays as it is. -/
def Machine.revise {σ : Type} (m : Machine) (mapper : Mapper σ) (data : σ) : Machine × σ :=
  let (root, data) := m.root.revise mapper [] data
  (⟨root, m.context⟩, data)

/-- Revise a machine by a mapper that carries no data. -/
def Machine.map (m : Machine) (mapper : PendingState → List State → PendingState) : Machine :=
  (m.revise (σ := Unit) (fun _ p path ↦ (mapper p path, ())) ()).1

end Statechart
