import Statechart.Proofs.Import.Soundness
import Statechart.Revision.Tree

/-!
# States declared below an existing state

Declared states are built by the pass that imports a whole config, but nothing is reported, and a
target that does not resolve is kept as it is written. Where an import finds nothing wrong the two
ways agree, state by state (`Import.value_state_lenient`), so the children of an imported root are
what a revision would have declared for it (`Machine.declared_of_ofConfig`).

A config need not be without problems for what is built from it to be sound: it is enough that no
compound config names a start that it does not declare and that no parallel config is empty
(`StateConfig.Startable`).
-/

namespace Statechart

/-! ### Declared states and their keys -/

namespace Import

variable (ix : Index) (r : Resolution) (id key : String) (path : List String)

theorem declared_eq_map (parent : String) (states : List (String × StateConfig)) :
    declared parent states =
      states.map fun e ↦
        (state (Index.below parent states) .lenient (Index.childId parent e.1 e.2) e.1 [e.1]
          e.2).value := by
  rw [declared, children_eq_each, Checked.value_each]
  rfl

/-- A declared state has the key under which it is declared. -/
theorem map_key_declared (parent : String) (states : List (String × StateConfig)) :
    (declared parent states).map (·.key) = Keyed.keys states := by
  rw [declared_eq_map, List.map_map]
  exact List.map_congr_left fun e _ ↦ key_value_state

/-! ### The two ways to resolve -/

variable {ix id path}

theorem value_target_lenient {reference : String} (h : (ix.resolve? path reference).isSome) :
    (target ix .lenient id path reference).value =
      (target ix .strict id path reference).value := by
  obtain ⟨found, hfound⟩ := Option.isSome_iff_exists.1 h
  rw [target, target, hfound]

/-- Where all targets resolve the transitions do not depend on what becomes of one that does
not. -/
theorem value_transitions_lenient {f : ConfigFacets} (h : f.targetProblems ix id path = []) :
    (transitions ix .lenient id path f).value = (transitions ix .strict id path f).value := by
  have hresolves : ∀ c ∈ f.declared, ∀ t ∈ c.targets, (ix.resolve? path t).isSome := by
    intro c hc t ht
    have hnone : ¬ (ix.resolve? path t).isNone = true :=
      List.filter_eq_nil_iff.1 (List.map_eq_nil_iff.1 h) t (List.mem_flatMap.2 ⟨c, hc, ht⟩)
    cases hresolve : ix.resolve? path t with
    | none => exact absurd (by rw [hresolve]; rfl) hnone
    | some found => rfl
  rw [value_transitions, value_transitions]
  refine List.flatMap_congr fun g hg ↦ List.map_congr_left fun c hc ↦ ?_
  have hdeclared : c ∈ f.declared := by
    rw [← flatMap_groups id f]
    exact List.mem_flatMap.2 ⟨g, hg, hc⟩
  rw [value_transition, value_transition]
  exact congrArg _ (List.filterMap_congr fun t ht ↦
    value_target_lenient (hresolves c hdeclared t ht))

variable {c : StateConfig}

/-- The kind of a state depends on the children that are built, not on their problems. -/
theorem value_kind_congr {f : ConfigFacets} {states : List (String × StateConfig)}
    {below below' : Checked (List State)} (h : below.value = below'.value) :
    (kind id f states below).value = (kind id f states below').value := by
  rw [kind, kind]
  cases type f states with
  | compound =>
    cases states.isEmpty with
    | true => rfl
    | false => exact congrArg (StateKind.compound (initial id f states).value) h
  | parallel =>
    cases states.isEmpty with
    | true => exact congrArg StateKind.parallel h
    | false => exact congrArg StateKind.parallel h
  | atomic | final | history => rfl

/-- **Nothing is kept where nothing is missing.** A config without problems is built the same way
whatever becomes of targets that do not resolve. -/
theorem value_state_lenient (h : c.problems ix id path = []) :
    (state ix .lenient id key path c).value = (state ix .strict id key path c).value := by
  induction c using StateConfig.induction generalizing id key path with
  | step c ih =>
    obtain ⟨-, hbelow, htargets⟩ := problems_eq_nil_iff.1 h
    have hchildren : (below ix .lenient id path c).value = (below ix .strict id path c).value := by
      rw [value_below, value_below]
      exact List.map_congr_left fun e he ↦ ih e he e.1 (hbelow e he)
    rw [value_state, value_state, value_transitions_lenient htargets, value_kind_congr hchildren]

end Import

/-! ### Configs whose states are sound -/

/-- A compound state with children that says where it starts declares that child, and a parallel
state declares one. -/
structure StateConfig.StartsBelow (c : StateConfig) : Prop where
  initial_mem : Import.type c.toConfigFacets c.states = .compound → c.states ≠ [] →
    ∀ key, c.initial = some key → key ∈ Keyed.keys c.states
  states_ne_nil : Import.type c.toConfigFacets c.states = .parallel → c.states ≠ []

/-- Every state of the config starts below itself. -/
def StateConfig.Startable (c : StateConfig) : Prop := ∀ d ∈ c.preorder, d.StartsBelow

instance (c : StateConfig) : Decidable c.StartsBelow :=
  decidable_of_iff
    ((Import.type c.toConfigFacets c.states = .compound → c.states.isEmpty = false →
        ∀ key ∈ c.initial, key ∈ Keyed.keys c.states) ∧
      (Import.type c.toConfigFacets c.states = .parallel → c.states.isEmpty = false))
    ⟨fun ⟨hinitial, hparallel⟩ ↦
        ⟨fun htype hne ↦ hinitial htype (List.isEmpty_eq_false_iff.2 hne),
          fun htype ↦ List.isEmpty_eq_false_iff.1 (hparallel htype)⟩,
      fun h ↦ ⟨fun htype hne ↦ h.initial_mem htype (List.isEmpty_eq_false_iff.1 hne),
        fun htype ↦ List.isEmpty_eq_false_iff.2 (h.states_ne_nil htype)⟩⟩

instance (c : StateConfig) : Decidable c.Startable :=
  inferInstanceAs (Decidable (∀ d ∈ c.preorder, d.StartsBelow))

namespace StateConfig

variable {c : StateConfig}

theorem Startable.startsBelow (h : c.Startable) : c.StartsBelow := h c (mem_preorder_self c)

theorem Startable.of_mem_states (h : c.Startable) {e : String × StateConfig} (he : e ∈ c.states) :
    e.2.Startable :=
  fun d hd ↦ h d (mem_preorder_of_mem_states he hd)

end StateConfig

namespace Import

variable {ix : Index} {r : Resolution} {id key : String} {path : List String} {c : StateConfig}

/-- **The kinds of states that are built.** A state has all children that are declared for it or
none at all, and a compound one starts where it says or else in the first of them. -/
theorem kind_value_state_forms (ix : Index) (r : Resolution) (id key : String) (path : List String)
    (c : StateConfig) :
    let s := (state ix r id key path c).value
    (s.children = [] ∧ s.type ≠ .compound ∧ s.type ≠ .parallel) ∨
      (type c.toConfigFacets c.states = .compound ∧ c.states ≠ [] ∧
          s.kind = .compound (c.initial.getD ((Keyed.keys c.states).headD ""))
            (below ix r id path c).value) ∨
        type c.toConfigFacets c.states = .parallel ∧
          s.kind = .parallel (below ix r id path c).value := by
  intro s
  have hs : s = ⟨_, (kind id c.toConfigFacets c.states (below ix r id path c)).value⟩ :=
    value_state ix r id key path c
  rw [hs, State.children, State.type]
  -- what the children are does not matter, only whether some are declared
  obtain ⟨f, states⟩ := c
  generalize below ix r id path ⟨f, states⟩ = children
  rw [kind]
  cases htype : type f states with
  | compound =>
    cases states with
    | nil => refine .inl ⟨rfl, ?_, ?_⟩ <;> rintro ⟨⟩
    | cons e es =>
      have hstart : (initial id f (e :: es)).value =
          f.initial.getD ((Keyed.keys (e :: es)).headD "") := by
        rw [initial]
        cases f.initial with
        | none => rfl
        | some key => simp only; split <;> rfl
      exact .inr (.inl ⟨rfl, List.cons_ne_nil e es, congrArg (StateKind.compound · _) hstart⟩)
  | parallel =>
    refine .inr (.inr ⟨rfl, ?_⟩)
    cases states <;> rfl
  | atomic | final | history =>
    refine .inl ?_
    cases states <;> refine ⟨rfl, ?_, ?_⟩ <;> rintro ⟨⟩

theorem map_key_value_below :
    (below ix r id path c).value.map (·.key) = Keyed.keys c.states := by
  rw [value_below, List.map_map]
  exact List.map_congr_left fun e _ ↦ key_value_state

/-- The children of a state that is built are among those that are built for its config. -/
theorem exists_of_mem_children_value_state {t : State}
    (ht : t ∈ (state ix r id key path c).value.children) :
    ∃ e ∈ c.states,
      t = (state ix r (Index.childId id e.1 e.2) e.1 (path ++ [e.1]) e.2).value := by
  have hbelow : t ∈ (below ix r id path c).value := by
    rcases kind_value_state_forms ix r id key path c with ⟨hnil, -⟩ | ⟨-, -, hk⟩ | ⟨-, hk⟩
    · exact absurd ht (hnil ▸ List.not_mem_nil)
    · rwa [State.children, hk] at ht
    · rwa [State.children, hk] at ht
  rw [value_below] at hbelow
  obtain ⟨e, he, rfl⟩ := List.mem_map.1 hbelow
  exact ⟨e, he, rfl⟩

theorem source_eq_of_mem_transitions {t : Transition}
    (ht : t ∈ (state ix r id key path c).value.transitions) :
    t.source = (state ix r id key path c).value.id := by
  rw [transitions_value_state, value_transitions] at ht
  obtain ⟨g, -, ht⟩ := List.mem_flatMap.1 ht
  obtain ⟨config, -, rfl⟩ := List.mem_map.1 ht
  rw [value_transition, id_value_state]
  rfl

/-- A state that starts below itself is sound by itself, whether its targets resolve or not. -/
theorem regular_value_state_of_startsBelow (hc : c.StartsBelow) (hkeys : Keyed.Distinct c.states) :
    (state ix r id key path c).value.Regular := by
  have hsource : ∀ t ∈ (state ix r id key path c).value.transitions,
      t.source = (state ix r id key path c).value.id := fun t ht ↦ source_eq_of_mem_transitions ht
  have hmap : (below ix r id path c).value.map (·.key) = Keyed.keys c.states :=
    map_key_value_below
  rcases kind_value_state_forms ix r id key path c with
    ⟨hnil, hcompound, hparallel⟩ | ⟨htype, hne, hk⟩ | ⟨htype, hk⟩
  · exact .of_leaf hsource hnil hcompound hparallel
  · have hstart : c.initial.getD ((Keyed.keys c.states).headD "") ∈ Keyed.keys c.states := by
      cases hinitial : c.initial with
      | some start => exact hc.initial_mem htype hne start hinitial
      | none =>
        obtain ⟨e, es, hcons⟩ := List.exists_cons_of_ne_nil hne
        rw [hcons]
        exact List.mem_cons_self
    exact .of_compound hsource hk (hmap ▸ hkeys) (by rwa [hmap])
  · refine .of_parallel hsource hk (hmap ▸ hkeys) fun hnil ↦ hc.states_ne_nil htype ?_
    rw [hnil] at hmap
    exact List.map_eq_nil_iff.1 hmap.symm

/-- All states that are built from such a config are sound. -/
theorem regular_of_mem_preorder_value_state (hc : c.Startable) (hkeys : c.KeysDistinct) :
    ∀ s ∈ (state ix r id key path c).value.preorder, s.Regular := by
  induction c using StateConfig.induction generalizing id key path with
  | step c ih =>
    intro s hs
    rcases State.mem_preorder_iff.1 hs with rfl | ⟨child, hchild, hs⟩
    · exact regular_value_state_of_startsBelow hc.startsBelow hkeys.states
    · obtain ⟨e, he, rfl⟩ := exists_of_mem_children_value_state hchild
      exact ih e he (hc.of_mem_states he) (hkeys.of_mem_states he) s hs

end Import

/-- States that are listed under their own keys. -/
theorem State.keys_map_key (ss : List State) :
    Keyed.keys (ss.map fun s ↦ (s.key, s)) = ss.map (·.key) := by
  rw [Keyed.keys, List.map_map]
  rfl

/-- The declared children of a revised state have the keys under which they are declared. -/
theorem State.keys_declaredChildren (s : PendingState.Settled) :
    Keyed.keys (declaredChildren s) = (s.declared.map Keyed.keys).getD [] := by
  rw [declaredChildren]
  cases s.declared with
  | none => rfl
  | some states => exact (keys_map_key _).trans (Import.map_key_declared s.state.id states)

namespace Machine

/-- **Declared children are built as an import builds them.** What is declared below a state with
the id of an imported root, by the configs that the root was imported from, are the children of that
root, in their order and under their keys. -/
theorem declared_of_ofConfig {c : MachineConfig} {m : Machine} (h : ofConfig c = .ok m) :
    Import.declared m.root.id c.root.states = m.root.children ∧
      m.root.children.map (·.key) = Keyed.keys c.root.states ∧
        ∀ s : PendingState.Settled, s.state.id = m.root.id → s.declared = some c.root.states →
          State.declaredChildren s = (Keyed.keys c.root.states).zip m.root.children := by
  have hdeclared : Import.declared m.root.id c.root.states = m.root.children := by
    obtain ⟨-, hproblems, rfl⟩ := ofConfig_eq_ok_iff.1 h
    obtain ⟨hkind, hbelow, -⟩ := Import.problems_eq_nil_iff.1 hproblems
    rw [Import.id_value_state, Import.children_value_state hkind, Import.declared_eq_map]
    exact List.map_congr_left fun e he ↦ Import.value_state_lenient e.1 (hbelow e he)
  have hkeys : m.root.children.map (·.key) = Keyed.keys c.root.states :=
    hdeclared ▸ Import.map_key_declared m.root.id c.root.states
  refine ⟨hdeclared, hkeys, fun s hid hs ↦ ?_⟩
  rw [State.declaredChildren, hs, hid]
  simp only [hdeclared]
  rw [← hkeys, List.map_prod_right_eq_zip]

theorem declared_of_ofConfig_lamp :
    ∃ m, ofConfig MachineConfig.lamp = .ok m ∧ m.root.id = "lamp" ∧
      Import.declared "lamp" MachineConfig.lamp.root.states = m.root.children ∧
        m.root.children.map (·.key) = ["off", "on"] ∧
          (m.root.children.flatMap fun s ↦ s.transitions.flatMap (·.targets)) =
            ["lit.up.low", "lamp.off", "lit.up.low"] := by
  have hok : ofConfig MachineConfig.lamp = .ok _ := (ofConfig_eq _).trans (if_pos (by decide))
  obtain ⟨hdeclared, hkeys, -⟩ := declared_of_ofConfig hok
  exact ⟨_, hok, rfl, hdeclared, hkeys, by decide⟩

end Machine

end Statechart
