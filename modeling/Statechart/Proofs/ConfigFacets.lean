import Statechart.Proofs.Import.Declared
import Statechart.Proofs.Import.Navigation
import Statechart.Proofs.Facets

/-!
# Changing the facets of a config

`StateConfig.mapFacets` changes what each config of a tree says of its own state and leaves the
children under their keys. If the ids stay, so does the index, and a reference leads where it led
before. What is built from the changed configs can then be compared with what was built before one
state at a time: `Import.mapFacets_value_state_mapFacets`.

`StateConfig.named` has the configs of a tree under the ids of their states, so that the config of a
state can be found by its id, `MachineConfig.facetsOf`.
-/

namespace Statechart

/-! ### Configs under the ids of their states -/

namespace StateConfig

mutual

/-- The config of the state `id` and those of all states below it, each with the id of its state. -/
def named (id : String) : StateConfig → List (String × StateConfig)
  | ⟨f, states⟩ => (id, ⟨f, states⟩) :: namedBelow id states

/-- The configs that the state `parent` declares and those below them, each with the id of its
state. -/
def namedBelow (parent : String) : List (String × StateConfig) → List (String × StateConfig)
  | [] => []
  | (key, c) :: es => c.named (Index.childId parent key c) ++ namedBelow parent es

end

variable (id key : String) (c : StateConfig)

theorem namedBelow_eq_flatMap (es : List (String × StateConfig)) :
    namedBelow id es = es.flatMap fun e ↦ e.2.named (Index.childId id e.1 e.2) := by
  induction es with
  | nil => rfl
  | cons e es ih => rw [namedBelow, ih, List.flatMap_cons]

theorem named_eq_cons :
    c.named id = (id, c) :: c.states.flatMap fun e ↦ e.2.named (Index.childId id e.1 e.2) := by
  obtain ⟨f, states⟩ := c
  rw [named, namedBelow_eq_flatMap]

theorem mem_named_of_mem_states {e d : String × StateConfig} (he : e ∈ c.states)
    (hd : d ∈ e.2.named (Index.childId id e.1 e.2)) : d ∈ c.named id := by
  rw [named_eq_cons]
  exact List.mem_cons_of_mem _ (List.mem_flatMap.2 ⟨e, he, hd⟩)

/-- The ids are those of the outline. -/
theorem map_fst_named : (c.named id).map Prod.fst = (c.outline id key).ids := by
  induction c using StateConfig.induction generalizing id key with
  | step c ih =>
    rw [named_eq_cons, outline_eq, Outline.ids_mk, List.map_cons, List.map_flatMap,
      List.flatMap_map]
    exact congrArg _ (List.flatMap_congr fun e he ↦ ih e he _ _)

/-- The configs are those of the tree. -/
theorem map_snd_named : (c.named id).map Prod.snd = c.preorder := by
  induction c using StateConfig.induction generalizing id with
  | step c ih =>
    rw [named_eq_cons, preorder_eq_cons, List.map_cons, List.map_flatMap]
    exact congrArg _ (List.flatMap_congr fun e he ↦ ih e he _)

end StateConfig

namespace MachineConfig

/-- The configs of a machine, each with the id of its state. -/
def named (c : MachineConfig) : List (String × StateConfig) :=
  c.root.named (c.root.id.getD "(machine)")

/-- What the config of the state `id` says of it. -/
def facetsOf (c : MachineConfig) (id : String) : ConfigFacets :=
  ((c.named.find? (·.1 == id)).map (·.2.toConfigFacets)).getD {}

theorem facetsOf_of_mem_named {c : MachineConfig} (hids : c.outline.ids.Nodup)
    {e : String × StateConfig} (he : e ∈ c.named) : c.facetsOf e.1 = e.2.toConfigFacets := by
  have hnodup : (c.named.map Prod.fst).Nodup := by
    rwa [named, StateConfig.map_fst_named _ (c.root.id.getD "(machine)")]
  rw [facetsOf, Outline.find?_key_eq_some hnodup he]
  rfl

end MachineConfig

/-! ### Changing facets -/

/-- The change leaves alone what the names and the kinds of states come from. -/
structure ConfigFacets.KeepsForm (g : ConfigFacets → ConfigFacets) : Prop where
  id_eq (f : ConfigFacets) : (g f).id = f.id
  type_eq (f : ConfigFacets) : (g f).type = f.type
  initial_eq (f : ConfigFacets) : (g f).initial = f.initial
  history_eq (f : ConfigFacets) : (g f).history = f.history
  doneData_eq (f : ConfigFacets) : (g f).doneData = f.doneData

namespace StateConfig

mutual

/-- Change what a config and all below it say of their own states. -/
def mapFacets (g : ConfigFacets → ConfigFacets) : StateConfig → StateConfig
  | ⟨f, states⟩ => ⟨g f, mapFacetsAll g states⟩

/-- Change what the configs of the list and all below them say of their own states. -/
def mapFacetsAll (g : ConfigFacets → ConfigFacets) :
    List (String × StateConfig) → List (String × StateConfig)
  | [] => []
  | (key, c) :: es => (key, c.mapFacets g) :: mapFacetsAll g es

end

variable (g : ConfigFacets → ConfigFacets) (c : StateConfig)

theorem mapFacetsAll_eq_map (es : List (String × StateConfig)) :
    mapFacetsAll g es = es.map fun e ↦ (e.1, e.2.mapFacets g) := by
  induction es with
  | nil => rfl
  | cons e es ih => rw [mapFacetsAll, ih, List.map_cons]

@[simp] theorem toConfigFacets_mapFacets :
    (c.mapFacets g).toConfigFacets = g c.toConfigFacets := by
  cases c
  rw [mapFacets]

@[simp] theorem states_mapFacets :
    (c.mapFacets g).states = c.states.map fun e ↦ (e.1, e.2.mapFacets g) := by
  cases c
  rw [mapFacets, mapFacetsAll_eq_map]

@[simp] theorem keys_states_mapFacets :
    Keyed.keys (c.mapFacets g).states = Keyed.keys c.states := by
  rw [states_mapFacets, Keyed.keys, List.map_map]
  rfl

variable {g} (hg : ConfigFacets.KeepsForm g)

include hg

theorem childId_mapFacets (parent key : String) :
    Index.childId parent key (c.mapFacets g) = Index.childId parent key c := by
  rw [Index.childId, toConfigFacets_mapFacets, hg.id_eq]
  rfl

/-- The index does not depend on anything but ids and keys. -/
theorem entriesOf_mapFacets (id : String) (path : List String) :
    Index.entriesOf id path (c.mapFacets g) = Index.entriesOf id path c := by
  induction c using StateConfig.induction generalizing id path with
  | step c ih =>
    rw [Index.entriesOf_eq_cons, states_mapFacets, List.flatMap_map, Index.entriesOf_eq_cons]
    refine congrArg _ (List.flatMap_congr fun e he ↦ ?_)
    rw [childId_mapFacets e.2 hg]
    exact ih e he _ _

theorem index_mapFacets (id : String) :
    Index.below id (c.mapFacets g).states = Index.below id c.states := by
  have hentries := entriesOf_mapFacets c hg id []
  rw [Index.below, Index.below, Index.entriesBelow_eq_flatMap, Index.entriesBelow_eq_flatMap,
    ← Index.entriesOf_eq_cons, ← Index.entriesOf_eq_cons, hentries]

theorem ids_outline_mapFacets (id key : String) :
    ((c.mapFacets g).outline id key).ids = (c.outline id key).ids := by
  rw [← Index.map_fst_entriesOf id key [], entriesOf_mapFacets c hg, Index.map_fst_entriesOf]

end StateConfig

namespace Import

variable {ix : Index} {r : Resolution} {id key : String} {path : List String}

/-- A change that keeps the form of a config and adds no target that does not resolve adds no
problem. -/
theorem problems_mapFacets_eq_nil {w : ConfigFacets → ConfigFacets} (hw : ConfigFacets.KeepsForm w)
    (htarget : ∀ f id path, f.targetProblems ix id path = [] →
      (w f).targetProblems ix id path = [])
    {c : StateConfig} (h : c.problems ix id path = []) :
    (c.mapFacets w).problems ix id path = [] := by
  induction c using StateConfig.induction generalizing id path with
  | step c ih =>
    obtain ⟨hself, hbelow, htargets⟩ := problems_eq_nil_iff.1 h
    refine problems_eq_nil_iff.2 ⟨?_, ?_, ?_⟩
    · rw [StateConfig.toConfigFacets_mapFacets, StateConfig.keys_states_mapFacets,
        ConfigFacets.kindProblems, hw.type_eq, ConfigFacets.initialProblems, hw.initial_eq]
      exact hself
    · rw [StateConfig.states_mapFacets, List.forall_mem_map]
      intro e he
      rw [StateConfig.childId_mapFacets e.2 hw]
      exact ih e he (hbelow e he)
    · rw [StateConfig.toConfigFacets_mapFacets]
      exact htarget _ _ _ htargets

/-- A change that keeps the form of a config keeps the kind of the state. -/
theorem kind_of_keepsForm {w : ConfigFacets → ConfigFacets} (hw : ConfigFacets.KeepsForm w)
    (id : String) (f : ConfigFacets) (states : List (String × StateConfig))
    (below : Checked (List State)) : kind id (w f) states below = kind id f states below := by
  simp only [kind, type, initial, hw.type_eq, hw.initial_eq, hw.history_eq, hw.doneData_eq]

/-- The kind of a state depends on the keys of its children alone. -/
theorem kind_congr_keys (f : ConfigFacets) {states states' : List (String × StateConfig)}
    (below : Checked (List State)) (h : Keyed.keys states = Keyed.keys states') :
    kind id f states below = kind id f states' below := by
  have hempty : states.isEmpty = states'.isEmpty := by
    rw [← List.isEmpty_map (f := Prod.fst), ← List.isEmpty_map (l := states') (f := Prod.fst)]
    exact congrArg List.isEmpty h
  have hinitial : initial id f states = initial id f states' := by
    have hhas : ∀ k, Keyed.has k states = Keyed.has k states' := fun k ↦ by
      rw [Keyed.has, Keyed.has, h]
    simp only [initial, hhas, h]
  simp only [kind, type, leaf, hempty, hinitial]

/-- The facets of the children are changed before or after the kind of the state is known. -/
theorem mapFacetsKind_value_kind (g : Facets → Facets) (f : ConfigFacets)
    (states : List (String × StateConfig)) (below : Checked (List State)) :
    State.mapFacetsKind g (kind id f states below).value =
      (kind id f states ⟨below.value.map (State.mapFacets g), below.problems⟩).value := by
  rw [kind, kind]
  cases type f states with
  | compound =>
    cases states.isEmpty with
    | true => rfl
    | false => exact congrArg (StateKind.compound _) (State.mapFacetsAll_eq_map g below.value)
  | parallel =>
    have hall := congrArg StateKind.parallel (State.mapFacetsAll_eq_map g below.value)
    cases states.isEmpty with
    | true => exact hall
    | false => exact hall
  | atomic | final | history => cases states <;> rfl

/-- **What is built from changed configs** is what is built from the configs, with its facets
changed, if that is so for every state by itself. -/
theorem mapFacets_value_state_mapFacets {w : ConfigFacets → ConfigFacets}
    (hw : ConfigFacets.KeepsForm w) {g h : Facets → Facets} {c : StateConfig}
    (hfacets : ∀ e ∈ c.named id, ∀ key path,
      g (facets e.1 key (transitions ix r e.1 path (w e.2.toConfigFacets)).value
          (w e.2.toConfigFacets)) =
        h (facets e.1 key (transitions ix r e.1 path e.2.toConfigFacets).value
          e.2.toConfigFacets)) :
    (state ix r id key path (c.mapFacets w)).value.mapFacets g =
      (state ix r id key path c).value.mapFacets h := by
  induction c using StateConfig.induction generalizing id key path with
  | step c ih =>
    have hbelow : (below ix r id path (c.mapFacets w)).value.map (State.mapFacets g) =
        (below ix r id path c).value.map (State.mapFacets h) := by
      rw [value_below, value_below, StateConfig.states_mapFacets, List.map_map, List.map_map,
        List.map_map]
      refine List.map_congr_left fun e he ↦ ?_
      simp only [Function.comp_apply]
      rw [StateConfig.childId_mapFacets e.2 hw]
      exact ih e he fun d hd ↦ hfacets d (c.mem_named_of_mem_states id he hd)
    have hself := hfacets (id, c) (by rw [StateConfig.named_eq_cons]; exact List.mem_cons_self)
      key path
    rw [value_state, value_state, State.mapFacets, State.mapFacets,
      StateConfig.toConfigFacets_mapFacets, hself, kind_of_keepsForm hw,
      kind_congr_keys _ _ (StateConfig.keys_states_mapFacets w c), mapFacetsKind_value_kind,
      mapFacetsKind_value_kind]
    exact congrArg _ (value_kind_congr hbelow)

end Import

end Statechart
