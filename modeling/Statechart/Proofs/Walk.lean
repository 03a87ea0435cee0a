import Statechart.Proofs.Tree
import Statechart.State.Inventory

/-!
# What a walk gives

A walk keeps the trees that are still to come on a stack, and gives their states one after the
other: `Walk.toList_eq_preorderAll`. The walks over a tree and over what is below its root are
therefore the preorder and the preorder without its first state.

`Walk.Yields` says the same of the single steps: it relates a walk that is under way to the states
that asking for the next one gives until there is none. Wherever a walk stands, it yields the trees
on its stack from the top down, and comes to an end (`Walk.yields_iff`). What is gathered from a
tree along a walk is then what its root has, followed by what is gathered from the children.
-/

namespace Statechart

/-- A walk gives the states of the trees on its stack, tree by tree. -/
theorem Walk.toList_eq_preorderAll (w : Walk) : w.toList = State.preorderAll w.stack := by
  induction w using Walk.toList.induct with
  | case1 w hnone =>
    obtain ⟨stack⟩ := w
    rw [toList]
    cases stack with
    | nil => rfl
    | cons s rest => cases hnone
  | case2 w s v hsome ih =>
    obtain ⟨stack⟩ := w
    rw [toList]
    cases stack with
    | nil => cases hsome
    | cons t rest =>
      obtain ⟨rfl, rfl⟩ := Prod.mk.inj (Option.some.inj hsome)
      show t :: toList ⟨t.children ++ rest⟩ = State.preorder t ++ State.preorderAll rest
      rw [ih, State.preorder_eq, State.preorderAll_append, List.cons_append]

namespace State

variable (s : State)

theorem states_eq_preorder : s.states = s.preorder := by
  rw [states, Walk.toList_eq_preorderAll]
  exact List.append_nil _

theorem properStates_eq_flatMap : s.properStates = s.children.flatMap preorder := by
  rw [properStates, Walk.toList_eq_preorderAll, ← preorderAll_eq_flatMap]
  rfl

end State

/-- The first state of this id in the order of the walk is found. -/
theorem Machine.find?_eq (m : Machine) (id : String) :
    m.find? id = m.root.preorder.find? (·.id == id) := by
  rw [find?, State.states_eq_preorder]

/-! ### Step by step -/

namespace Walk

/-- The walk gives these states one after the other, and then it is over. -/
inductive Yields : Walk → List State → Prop
  | done {w : Walk} (h : w.next? = none) : Yields w []
  | step {w v : Walk} {s : State} {ss : List State} (h : w.next? = some (s, v))
      (rest : Yields v ss) : Yields w (s :: ss)

theorem yields_toList (w : Walk) : w.Yields w.toList := by
  induction w using toList.induct with
  | case1 w hnone =>
    rw [toList, hnone]
    exact .done hnone
  | case2 w s v hsome ih =>
    rw [toList, hsome]
    exact .step hsome ih

/-- The next state is always the same one. -/
theorem Yields.unique {w : Walk} {ss ts : List State} (hss : w.Yields ss) (hts : w.Yields ts) :
    ss = ts := by
  induction hss generalizing ts with
  | done h =>
    cases hts with
    | done => rfl
    | step h' => cases h.symm.trans h'
  | step h _ ih =>
    cases hts with
    | done h' => cases h.symm.trans h'
    | step h' rest =>
      obtain ⟨rfl, rfl⟩ := Prod.mk.inj (Option.some.inj (h.symm.trans h'))
      rw [ih rest]

/-- **Wherever a walk stands**, what is left of it are the trees on its stack, from the top down. -/
theorem yields_iff {w : Walk} {ss : List State} :
    w.Yields ss ↔ ss = w.stack.flatMap State.preorder := by
  have hall : w.Yields (w.stack.flatMap State.preorder) := by
    rw [← State.preorderAll_eq_flatMap, ← toList_eq_preorderAll]
    exact yields_toList w
  constructor
  · exact fun h ↦ h.unique hall
  · rintro rfl
    exact hall

end Walk

/-! ### Gathering along a walk -/

namespace State

variable {α : Type}

/-- What `all` gathers from a tree is what the root has of its `own`, and then what `all` gathers
from the children, one after the other. -/
def Gathers (all own : State → List α) : Prop :=
  ∀ s, all s = own s ++ s.children.flatMap all

theorem gathers_flatMap (own : State → List α) : Gathers (fun s ↦ s.states.flatMap own) own := by
  intro s
  simp only [states_eq_preorder]
  rw [preorder_eq_cons, List.flatMap_cons, List.flatMap_assoc]

theorem allGuards_eq_flatMap (s : State) :
    s.allGuards = s.states.flatMap fun u ↦ u.transitions.filterMap (·.guard) :=
  List.filterMap_flatMap

/-- **A walk and all that is gathered along it follow the recursion over the tree.** The preorder
is a state and then the preorders of its children. From wherever it stands, a walk yields the
preorders of the trees on its stack, from the top down, and nothing else. The walk over a tree
yields its preorder, and without the root the preorder but for its first state. Transitions,
actions, guards and invocations are gathered from the root and then from its children. The state
that is found under an id is the first one in the preorder that has it, and none is found exactly
if no state has it. -/
theorem yields_and_gathers :
    (∀ s : State, s.preorder = s :: s.children.flatMap preorder) ∧
      (∀ (w : Walk) (ss : List State), w.Yields ss ↔ ss = w.stack.flatMap preorder) ∧
      (∀ (s : State) (ss : List State), (Walk.tree s).Yields ss ↔ ss = s.preorder) ∧
      (∀ (s : State) (ss : List State), (Walk.below s).Yields ss ↔ ss = s.preorder.tail) ∧
      (∀ s : State, s.states = s.preorder ∧ s.properStates = s.preorder.tail) ∧
      Gathers allTransitions (·.transitions) ∧
      Gathers allActions (fun s ↦ s.entry ++ s.exit ++ s.transitions.flatMap (·.actions)) ∧
      Gathers allGuards (fun s ↦ s.transitions.filterMap (·.guard)) ∧
      Gathers allInvocations (·.invocations) ∧
      (∀ (m : Machine) (id : String),
        (m.find? id = none ↔ ∀ s ∈ m.root.preorder, s.id ≠ id) ∧
          ∀ s, m.find? id = some s ↔
            ∃ before after, m.root.preorder = before ++ s :: after ∧ s.id = id ∧
              ∀ u ∈ before, u.id ≠ id) := by
  have htail : ∀ s : State, s.preorder.tail = s.children.flatMap preorder := fun s ↦ by
    rw [preorder_eq_cons, List.tail_cons]
  have hguards : allGuards = fun s ↦ s.states.flatMap fun u ↦ u.transitions.filterMap (·.guard) :=
    funext allGuards_eq_flatMap
  refine ⟨preorder_eq_cons, fun _ _ ↦ Walk.yields_iff, fun s ss ↦ ?_, fun s ss ↦ ?_, fun s ↦ ?_,
    gathers_flatMap _, gathers_flatMap _, hguards ▸ gathers_flatMap _, gathers_flatMap _,
    fun m id ↦ ⟨?_, fun s ↦ ?_⟩⟩
  · rw [Walk.yields_iff, Walk.tree, List.flatMap_singleton]
  · rw [Walk.yields_iff, Walk.below, htail]
  · rw [htail]
    exact ⟨states_eq_preorder s, properStates_eq_flatMap s⟩
  · rw [Machine.find?_eq, List.find?_eq_none]
    exact forall₂_congr fun s _ ↦ by rw [beq_iff_eq]
  · rw [Machine.find?_eq, List.find?_eq_some_iff_append, beq_iff_eq]
    constructor
    · rintro ⟨hid, before, after, hsplit, hbefore⟩
      exact ⟨before, after, hsplit, hid, fun u hu ↦ by simpa using hbefore u hu⟩
    · rintro ⟨before, after, hsplit, hid, hbefore⟩
      exact ⟨hid, before, after, hsplit, fun u hu ↦ by simpa using hbefore u hu⟩

end State

end Statechart
