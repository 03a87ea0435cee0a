import Statechart.Proofs.Import.Problems
import Statechart.Proofs.WellFormed

/-!
# Imported machines are well formed

A config without problems has a machine that is well formed and has the outline of the config:
`Machine.ofConfig_sound`. No check is ever made on the finished tree. That its ids are distinct and
its targets are among them is known of the index, and the states get the ids that the index lists
because both have the outline of the config.

What the absence of problems means for one state is `Import.kind_value_state_cases`; all else
follows from it by induction on the config.
-/

namespace Statechart

namespace Import

variable {ix : Index} {r : Resolution} {id key : String} {path : List String} {c : StateConfig}

/-! ### One state -/

theorem eq_nil_of_isLeaf (hkind : c.kindProblems id (Keyed.keys c.states) = [])
    (hleaf : c.isLeaf = true) : c.states = [] := by
  rw [ConfigFacets.kindProblems] at hkind
  rw [ConfigFacets.isLeaf] at hleaf
  rcases htype : c.type with - | (- | - | - | - | -) <;> simp only [htype] at hkind hleaf
  case none | some.compound | some.parallel => exact absurd hleaf Bool.false_ne_true
  all_goals
    by_contra hne
    have hkeys : Keyed.keys c.states ≠ [] := mt List.map_eq_nil_iff.1 hne
    rw [if_neg hkeys] at hkind
    exact absurd hkind (List.cons_ne_nil _ _)

theorem value_initial_mem {f : ConfigFacets} {states : List (String × StateConfig)}
    (h : f.initialProblems id (Keyed.keys states) = []) :
    (initial id f states).value ∈ Keyed.keys states := by
  rw [ConfigFacets.initialProblems] at h
  rw [initial]
  cases hinitial : f.initial with
  | none => exact absurd (hinitial ▸ h) (List.cons_ne_nil _ _)
  | some start =>
    simp only [hinitial] at h
    by_cases hmem : start ∈ Keyed.keys states
    · have hhas : Keyed.has start states = true := List.contains_iff_mem.2 hmem
      simp only [hhas, if_true]
      exact hmem
    · exact absurd ((if_neg hmem).symm.trans h) (List.cons_ne_nil _ _)

theorem id_value_state : (state ix r id key path c).value.id = id := by
  rw [value_state]
  rfl

theorem key_value_state : (state ix r id key path c).value.key = key := by
  rw [value_state]
  rfl

theorem transitions_value_state :
    (state ix r id key path c).value.transitions =
      (transitions ix r id path c.toConfigFacets).value := by
  rw [value_state]
  rfl

/-- **The kinds of states without problems.** A leaf declares no children, a compound state starts
in one that it declares, and a parallel state declares one. -/
theorem kind_value_state_cases (ix : Index) (r : Resolution) (key : String) (path : List String)
    (hkind : c.kindProblems id (Keyed.keys c.states) = []) :
    let s := (state ix r id key path c).value
    (c.states = [] ∧ s.children = [] ∧ s.initial? = none ∧ s.type ≠ .parallel) ∨
      (∃ start ∈ Keyed.keys c.states, s.kind = .compound start (below ix r id path c).value) ∨
        c.states ≠ [] ∧ s.kind = .parallel (below ix r id path c).value := by
  intro s
  have hs : s = ⟨_, (kind id c.toConfigFacets c.states (below ix r id path c)).value⟩ :=
    value_state ix r id key path c
  rw [hs, State.children, State.initial?, State.type]
  -- what the children are does not matter, only whether some are declared
  obtain ⟨f, states⟩ := c
  rw [ConfigFacets.kindProblems] at hkind
  rw [kind, type]
  generalize below ix r id path ⟨f, states⟩ = children
  cases states with
  | nil =>
    rcases htype : f.type with - | (- | - | - | - | -) <;> simp only [htype] at hkind
    case some.parallel => exact absurd hkind (List.cons_ne_nil _ _)
    all_goals exact .inl ⟨rfl, rfl, rfl, fun hparallel ↦ StateType.noConfusion hparallel⟩
  | cons e es =>
    rcases htype : f.type with - | (- | - | - | - | -) <;> simp only [htype] at hkind
    case none | some.compound => exact .inr (.inl ⟨_, value_initial_mem hkind, rfl⟩)
    case some.parallel => exact .inr (.inr ⟨List.cons_ne_nil _ _, rfl⟩)
    all_goals exact absurd hkind (List.cons_ne_nil _ _)

/-- A state without problems has a child for each one that it declares. -/
theorem children_value_state (hkind : c.kindProblems id (Keyed.keys c.states) = []) :
    (state ix r id key path c).value.children =
      c.states.map fun e ↦
        (state ix r (Index.childId id e.1 e.2) e.1 (path ++ [e.1]) e.2).value := by
  rw [← value_below]
  rcases kind_value_state_cases ix r key path hkind with
    ⟨hnil, hchildren, -, -⟩ | ⟨start, -, hk⟩ | ⟨-, hk⟩
  · rw [hchildren, value_below, hnil, List.map_nil]
  · rw [State.children, hk]
    rfl
  · rw [State.children, hk]
    rfl

/-- The children have the keys under which they are declared. -/
theorem map_key_children_value_state (hkind : c.kindProblems id (Keyed.keys c.states) = []) :
    (state ix r id key path c).value.children.map (·.key) = Keyed.keys c.states := by
  rw [children_value_state hkind, List.map_map]
  exact List.map_congr_left fun e _ ↦ key_value_state

/-- Each transition that is built starts at its state, and its targets are in the index. -/
theorem source_eq_and_mem_ids_of_mem {t : Transition}
    (ht : t ∈ (state ix .strict id key path c).value.transitions) :
    t.source = id ∧ ∀ x ∈ t.targets, x ∈ ix.ids := by
  rw [transitions_value_state, value_transitions] at ht
  obtain ⟨g, -, ht⟩ := List.mem_flatMap.1 ht
  obtain ⟨config, -, rfl⟩ := List.mem_map.1 ht
  rw [value_transition]
  refine ⟨rfl, fun x hx ↦ ?_⟩
  obtain ⟨reference, -, hx⟩ := List.mem_filterMap.1 hx
  exact Index.mem_ids_of_resolve? ((value_target_strict ix id path reference).symm.trans hx)

/-- A state without problems is sound by itself. -/
theorem regular_value_state (hkind : c.kindProblems id (Keyed.keys c.states) = [])
    (hkeys : Keyed.Distinct c.states) : (state ix .strict id key path c).value.Regular := by
  have hmap : (state ix .strict id key path c).value.children.map (·.key) =
      Keyed.keys c.states := map_key_children_value_state hkind
  have hsource : ∀ t ∈ (state ix .strict id key path c).value.transitions,
      t.source = (state ix .strict id key path c).value.id := fun t ht ↦ by
    rw [id_value_state]
    exact (source_eq_and_mem_ids_of_mem ht).1
  refine ⟨hmap ▸ hkeys, ?_, ?_, hsource⟩
  · intro start hstart
    rw [hmap]
    rcases kind_value_state_cases ix .strict key path hkind with
      ⟨-, -, hnone, -⟩ | ⟨start', hmem, hk⟩ | ⟨-, hk⟩
    · rw [hnone] at hstart
      cases hstart
    · rw [State.initial?, hk] at hstart
      cases hstart
      exact hmem
    · rw [State.initial?, hk] at hstart
      cases hstart
  · intro hparallel hnil
    have hkeys_nil : Keyed.keys c.states = [] := by rw [← hmap, hnil, List.map_nil]
    rcases kind_value_state_cases ix .strict key path hkind with
      ⟨-, -, -, hne⟩ | ⟨start', hmem, hk⟩ | ⟨hne, -⟩
    · exact hne hparallel
    · exact absurd hmem (hkeys_nil ▸ List.not_mem_nil)
    · exact hne (List.map_eq_nil_iff.1 hkeys_nil)

/-! ### The whole tree -/

/-- A config is without problems exactly if its kind is, its children are, and its targets
resolve. A leaf could hide what is wrong with its children, but it must not declare any. -/
theorem problems_eq_nil_iff :
    c.problems ix id path = [] ↔
      c.kindProblems id (Keyed.keys c.states) = [] ∧
        (∀ e ∈ c.states, e.2.problems ix (Index.childId id e.1 e.2) (path ++ [e.1]) = []) ∧
          c.targetProblems ix id path = [] := by
  rw [StateConfig.problems_eq, List.append_eq_nil_iff, List.append_eq_nil_iff, and_assoc]
  -- a leaf whose kind is in order has no children that could be passed over
  refine and_congr_right fun hkind ↦ and_congr_left fun _ ↦ ?_
  by_cases hleaf : c.isLeaf = true
  · rw [if_pos hleaf]
    have hnil : c.states = [] := eq_nil_of_isLeaf hkind hleaf
    exact iff_of_true rfl fun e he ↦ absurd he (hnil ▸ List.not_mem_nil)
  · rw [if_neg hleaf, List.flatMap_eq_nil_iff]

/-- The tree that is built has the outline of the config. -/
theorem outline_value_state (h : c.problems ix id path = []) :
    (state ix r id key path c).value.outline = c.outline id key := by
  induction c using StateConfig.induction generalizing id key path with
  | step c ih =>
    obtain ⟨hkind, hbelow, -⟩ := problems_eq_nil_iff.1 h
    rw [State.outline_eq, StateConfig.outline_eq, children_value_state hkind, List.map_map,
      id_value_state, key_value_state]
    exact congrArg _ (List.map_congr_left fun e he ↦ ih e he (hbelow e he))

/-- What holds of every state that is built from a config without problems holds of the whole
tree. -/
theorem forall_mem_preorder_value_state {motive : State → Prop}
    (step : ∀ (c : StateConfig) (id key : String) (path : List String),
      c.KeysDistinct → c.kindProblems id (Keyed.keys c.states) = [] →
        motive (state ix r id key path c).value)
    (h : c.problems ix id path = []) (hkeys : c.KeysDistinct) :
    ∀ s ∈ (state ix r id key path c).value.preorder, motive s := by
  induction c using StateConfig.induction generalizing id key path with
  | step c ih =>
    obtain ⟨hkind, hbelow, -⟩ := problems_eq_nil_iff.1 h
    intro s hs
    rcases State.mem_preorder_iff.1 hs with rfl | ⟨child, hchild, hs⟩
    · exact step c id key path hkeys hkind
    · rw [children_value_state hkind] at hchild
      obtain ⟨e, he, rfl⟩ := List.mem_map.1 hchild
      exact ih e he (hbelow e he) (hkeys.of_mem_states he) s hs

end Import

namespace Machine

/-- A machine is imported from a config with distinct ids in which nothing is wrong with a state,
and it is the one that is built. -/
theorem ofConfig_eq_ok_iff {c : MachineConfig} {m : Machine} :
    let id := c.root.id.getD defaultId
    let ix := Index.below id c.root.states
    ofConfig c = .ok m ↔
      c.outline.ids.Nodup ∧ c.root.problems ix id [] = [] ∧
        m = ⟨(Import.state ix .strict id id [] c.root).value, c.context⟩ := by
  intro id ix
  have hproblems : c.problems = [] ↔ c.outline.ids.Nodup ∧ c.root.problems ix id [] = [] := by
    rw [← Index.repeats_eq_nil_iff, ← List.map_eq_nil_iff (f := Problem.duplicateId)]
    exact List.append_eq_nil_iff
  rw [ofConfig_eq, ← and_assoc, ← hproblems]
  by_cases h : c.problems = []
  · rw [if_pos h, Except.ok.injEq, eq_comm]
    exact (and_iff_right h).symm
  · rw [if_neg h]
    exact iff_of_false nofun fun hm ↦ h hm.1

section

variable {c : MachineConfig} {m : Machine} (h : ofConfig c = .ok m)

include h

theorem outline_of_ofConfig : m.root.outline = c.outline := by
  obtain ⟨-, hproblems, rfl⟩ := ofConfig_eq_ok_iff.1 h
  exact Import.outline_value_state hproblems

theorem key_root_of_ofConfig : m.root.key = m.root.id := by
  obtain ⟨-, -, rfl⟩ := ofConfig_eq_ok_iff.1 h
  exact Import.key_value_state.trans Import.id_value_state.symm

theorem wellFormed_of_ofConfig (hkeys : c.root.KeysDistinct) : m.WellFormed := by
  -- the ids and the targets are compared with those of the index by way of the outline
  have houtline : m.root.outline = c.outline := outline_of_ofConfig h
  obtain ⟨hnodup, hproblems, rfl⟩ := ofConfig_eq_ok_iff.1 h
  refine ⟨?_, ?_, ?_⟩
  · rw [← State.ids_outline, houtline]
    exact hnodup
  · exact Import.forall_mem_preorder_value_state
      (fun _ _ _ _ hkeys hkind ↦ Import.regular_value_state hkind hkeys.states) hproblems hkeys
  · rw [← State.ids_outline, houtline, MachineConfig.outline, ← Index.ids_below]
    exact Import.forall_mem_preorder_value_state
      (fun _ _ _ _ _ _ _ ht ↦ (Import.source_eq_and_mem_ids_of_mem ht).2) hproblems hkeys

end

/-- **Imports are sound.** A machine that is imported from a config is well formed and has the
outline of the config. -/
theorem ofConfig_sound {c : MachineConfig} {m : Machine} (hkeys : c.root.KeysDistinct)
    (h : ofConfig c = .ok m) : m.WellFormed ∧ m.root.outline = c.outline :=
  ⟨wellFormed_of_ofConfig h hkeys, outline_of_ofConfig h⟩

end Machine

/-- A lamp that goes dark by itself. An id with a point in it stands above one that is derived from
it, and the targets are written in every form. -/
def MachineConfig.lamp : MachineConfig where
  root := {
    id := some "lamp"
    initial := some "off"
    states := [
      ("off", { on := [("toggle", [.to ["on.low"]])] }),
      ("on", {
        id := some "lit.up"
        initial := some "low"
        after := [("500", [.to ["off"]])]
        always := [.to [".low"]]
        states := [("low", { on := [("dim", [.to ["#lamp.off", "#lit.up"]])] })] })] }
  context := .null

theorem Machine.ofConfig_sound_lamp :
    MachineConfig.lamp.root.KeysDistinct ∧
      ∃ m, ofConfig MachineConfig.lamp = .ok m ∧
        m.WellFormed ∧ m.root.outline = MachineConfig.lamp.outline := by
  have hkeys : MachineConfig.lamp.root.KeysDistinct := by decide
  have hok : ofConfig MachineConfig.lamp = .ok _ := (ofConfig_eq _).trans (if_pos (by decide))
  exact ⟨hkeys, _, hok, ofConfig_sound hkeys hok⟩

end Statechart
