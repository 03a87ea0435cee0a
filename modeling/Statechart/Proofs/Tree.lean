import Statechart.Import.Index
import Statechart.State.Walk
import Mathlib.Data.List.Basic

/-!
# Trees of states and of configs

States and configs are trees whose nodes hold lists of trees. For both kinds this module has an
induction principle with one hypothesis for all children at once (`State.induction`,
`StateConfig.induction`), and the list of all nodes in which a node stands before those below it.

An `Outline` is what the two kinds of trees have in common: the id and the key of every node, and
how the nodes are nested. `StateConfig.outline` assigns the ids that a config leaves out.
-/

namespace Statechart

/-! ### States -/

namespace State

/-- What passes from the children of a state to the state holds of every state. -/
@[elab_as_elim]
theorem induction {motive : State → Prop}
    (step : ∀ s : State, (∀ c ∈ s.children, motive c) → motive s) (s : State) : motive s :=
  @State.rec motive (fun k ↦ ∀ c ∈ k.children, motive c) (fun ss ↦ ∀ c ∈ ss, motive c)
    (fun _ _ below ↦ step _ below)
    (fun _ h ↦ absurd h List.not_mem_nil)
    (fun _ _ all ↦ all)
    (fun _ all ↦ all)
    (fun _ _ h ↦ absurd h List.not_mem_nil)
    (fun _ _ h ↦ absurd h List.not_mem_nil)
    (fun _ h ↦ absurd h List.not_mem_nil)
    (fun _ _ first rest ↦ List.forall_mem_cons.2 ⟨first, rest⟩) s

theorem preorderAll_eq_flatMap (ss : List State) : preorderAll ss = ss.flatMap preorder := by
  induction ss with
  | nil => rfl
  | cons s ss ih => rw [preorderAll, ih, List.flatMap_cons]

/-- A state, then the trees of its children. -/
theorem preorder_eq_cons (s : State) : s.preorder = s :: s.children.flatMap preorder := by
  rw [preorder_eq, preorderAll_eq_flatMap]

theorem mem_preorder_iff {s r : State} :
    s ∈ r.preorder ↔ s = r ∨ ∃ c ∈ r.children, s ∈ c.preorder := by
  rw [preorder_eq_cons, List.mem_cons, List.mem_flatMap]

theorem mem_preorder_self (s : State) : s ∈ s.preorder := mem_preorder_iff.2 (.inl rfl)

/-- What lies below a child lies below the state. -/
theorem mem_preorder_of_mem_children {s c r : State} (hc : c ∈ r.children)
    (hs : s ∈ c.preorder) : s ∈ r.preorder :=
  mem_preorder_iff.2 (.inr ⟨c, hc, hs⟩)

theorem children_sublist_preorder (s : State) : s.children.Sublist s.preorder := by
  have hall : ∀ ss : List State, ss.Sublist (ss.flatMap preorder) := by
    intro ss
    induction ss with
    | nil => exact .slnil
    | cons c ss ih =>
      rw [List.flatMap_cons, preorder_eq_cons, List.cons_append]
      exact (ih.trans (List.sublist_append_right _ _)).cons_cons c
  rw [preorder_eq_cons]
  exact (hall s.children).cons s

/-- The tree of a state stands in one piece. -/
theorem preorder_sublist_of_mem {s r : State} (hs : s ∈ r.preorder) :
    s.preorder.Sublist r.preorder := by
  induction r using State.induction with
  | step r ih =>
    rcases mem_preorder_iff.1 hs with rfl | ⟨c, hc, hs⟩
    · exact .refl _
    · have hbelow : c.preorder.Sublist (r.children.flatMap preorder) :=
        List.sublist_flatten_of_mem (List.mem_map_of_mem hc)
      rw [preorder_eq_cons r]
      exact ((ih c hc hs).trans hbelow).cons r

theorem mem_preorder_of_parent {s c r : State} (hs : s ∈ r.preorder) (hc : c ∈ s.children) :
    c ∈ r.preorder :=
  (preorder_sublist_of_mem hs).subset (s.children_sublist_preorder.subset hc)

/-- The ids of a state and of all states below it. -/
def ids (s : State) : List String := s.preorder.map (·.id)

end State

/-! ### Configs -/

namespace StateConfig

/-- What passes from the configs of the children to the config of the state holds of every
config. -/
@[elab_as_elim]
theorem induction {motive : StateConfig → Prop}
    (step : ∀ c : StateConfig, (∀ e ∈ c.states, motive e.2) → motive c) (c : StateConfig) :
    motive c :=
  @StateConfig.rec motive (fun es ↦ ∀ e ∈ es, motive e.2) (fun e ↦ motive e.2)
    (fun _ _ below ↦ step _ below)
    (fun _ h ↦ absurd h List.not_mem_nil)
    (fun _ _ first rest ↦ List.forall_mem_cons.2 ⟨first, rest⟩)
    (fun _ _ child ↦ child) c

mutual

/-- The config of a state, then those of all states below it. -/
def preorder : StateConfig → List StateConfig
  | ⟨f, states⟩ => ⟨f, states⟩ :: preorderAll states

/-- The configs of the list and of all states below them, one after the other. -/
def preorderAll : List (String × StateConfig) → List StateConfig
  | [] => []
  | (_, c) :: es => preorder c ++ preorderAll es

end

theorem preorderAll_eq_flatMap (es : List (String × StateConfig)) :
    preorderAll es = es.flatMap fun e ↦ e.2.preorder := by
  induction es with
  | nil => rfl
  | cons e es ih => rw [preorderAll, ih, List.flatMap_cons]

/-- The config of a state, then the trees of the configs of its children. -/
theorem preorder_eq_cons (c : StateConfig) :
    c.preorder = c :: c.states.flatMap fun e ↦ e.2.preorder := by
  obtain ⟨f, states⟩ := c
  rw [preorder, preorderAll_eq_flatMap]

theorem mem_preorder_iff {d c : StateConfig} :
    d ∈ c.preorder ↔ d = c ∨ ∃ e ∈ c.states, d ∈ e.2.preorder := by
  rw [preorder_eq_cons, List.mem_cons, List.mem_flatMap]

theorem mem_preorder_self (c : StateConfig) : c ∈ c.preorder := mem_preorder_iff.2 (.inl rfl)

/-- What lies below a child lies below the state. -/
theorem mem_preorder_of_mem_states {d c : StateConfig} {e : String × StateConfig}
    (he : e ∈ c.states) (hd : d ∈ e.2.preorder) : d ∈ c.preorder :=
  mem_preorder_iff.2 (.inr ⟨e, he, hd⟩)

end StateConfig

/-! ### Outlines -/

/-- The names in a tree and how they are nested. -/
structure Outline where
  id : String
  key : String
  children : List Outline

mutual

/-- The ids in an outline, each before those below it. -/
def Outline.ids : Outline → List String
  | ⟨id, _, children⟩ => id :: idsAll children

/-- The ids in the outlines of the list, one after the other. -/
def Outline.idsAll : List Outline → List String
  | [] => []
  | o :: os => o.ids ++ idsAll os

end

namespace Outline

theorem idsAll_eq_flatMap (os : List Outline) : idsAll os = os.flatMap ids := by
  induction os with
  | nil => rfl
  | cons o os ih => rw [idsAll, ih, List.flatMap_cons]

theorem ids_mk (id key : String) (os : List Outline) :
    ids ⟨id, key, os⟩ = id :: os.flatMap ids := by rw [ids, idsAll_eq_flatMap]

end Outline

mutual

/-- The outline of a tree of states. -/
def State.outline : State → Outline
  | ⟨f, k⟩ => ⟨f.id, f.key, State.outlineKind k⟩

/-- The outlines of the children of a state of this kind. -/
def State.outlineKind : StateKind State → List Outline
  | .compound _ states => State.outlines states
  | .parallel states => State.outlines states
  | _ => []

/-- The outlines of the trees of the list. -/
def State.outlines : List State → List Outline
  | [] => []
  | s :: ss => s.outline :: State.outlines ss

end

namespace State

theorem outlines_eq_map (ss : List State) : outlines ss = ss.map outline := by
  induction ss with
  | nil => rfl
  | cons s ss ih => rw [outlines, ih, List.map_cons]

theorem outline_eq (s : State) : s.outline = ⟨s.id, s.key, s.children.map outline⟩ := by
  obtain ⟨f, k⟩ := s
  rw [outline]
  cases k <;> simp only [outlineKind, outlines_eq_map, children, StateKind.children, List.map_nil]

/-- The ids of an outline are those of the tree. -/
theorem ids_outline (s : State) : s.outline.ids = s.ids := by
  induction s using State.induction with
  | step s ih =>
    rw [outline_eq, Outline.ids_mk, ids, preorder_eq_cons, List.map_cons, List.map_flatMap,
      List.flatMap_map]
    exact congrArg _ (List.flatMap_congr ih)

end State

mutual

/-- The outline of a config whose state has this id and this key. A child that does not name an id
has the id of its parent and its key with a point between them. -/
def StateConfig.outline (id key : String) : StateConfig → Outline
  | ⟨_, states⟩ => ⟨id, key, StateConfig.outlines id states⟩

/-- The outlines of the configs that the state `parent` declares. -/
def StateConfig.outlines (parent : String) : List (String × StateConfig) → List Outline
  | [] => []
  | (key, c) :: es =>
    c.outline (c.id.getD (parent ++ "." ++ key)) key :: StateConfig.outlines parent es

end

/-- The outline of the config of a machine. The root has its id for a key. -/
def MachineConfig.outline (c : MachineConfig) : Outline :=
  c.root.outline (c.root.id.getD "(machine)") (c.root.id.getD "(machine)")

namespace StateConfig

theorem outlines_eq_map (parent : String) (es : List (String × StateConfig)) :
    outlines parent es = es.map fun e ↦ e.2.outline (Index.childId parent e.1 e.2) e.1 := by
  induction es with
  | nil => rfl
  | cons e es ih => rw [outlines, ih, List.map_cons]; rfl

theorem outline_eq (id key : String) (c : StateConfig) :
    c.outline id key =
      ⟨id, key, c.states.map fun e ↦ e.2.outline (Index.childId id e.1 e.2) e.1⟩ := by
  obtain ⟨f, states⟩ := c
  rw [outline, outlines_eq_map]

end StateConfig

end Statechart
