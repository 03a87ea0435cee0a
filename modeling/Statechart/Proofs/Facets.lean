import Statechart.Proofs.WellFormed

/-!
# Changing the facets of a tree

`State.mapFacets` changes what each state of a tree carries and leaves the tree as it is: the
states, their kinds and their children. Two changes have the same result exactly if they agree on
every state of the tree (`State.mapFacets_eq_iff`).

`Machine.mapTransitions` changes the transitions of each state and nothing else. If it adds none, a
well-formed machine stays well formed.
-/

namespace Statechart

/-- The kind with other children. A leaf stays without. -/
def StateKind.withChildren {σ : Type} (children : List σ) : StateKind σ → StateKind σ
  | .compound initial _ => .compound initial children
  | .parallel _ => .parallel children
  | leaf => leaf

namespace State

mutual

/-- Change the facets of a state and of all states below it. -/
def mapFacets (g : Facets → Facets) : State → State
  | ⟨f, k⟩ => ⟨g f, mapFacetsKind g k⟩

/-- Change the facets of all states below a state of this kind. -/
def mapFacetsKind (g : Facets → Facets) : StateKind State → StateKind State
  | .atomic => .atomic
  | .compound initial states => .compound initial (mapFacetsAll g states)
  | .parallel states => .parallel (mapFacetsAll g states)
  | .final doneData => .final doneData
  | .history kind => .history kind

/-- Change the facets of the trees of the list. -/
def mapFacetsAll (g : Facets → Facets) : List State → List State
  | [] => []
  | s :: ss => mapFacets g s :: mapFacetsAll g ss

end

variable (g h : Facets → Facets) (s : State)

theorem mapFacetsAll_eq_map (ss : List State) : mapFacetsAll g ss = ss.map (mapFacets g) := by
  induction ss with
  | nil => rfl
  | cons s ss ih => rw [mapFacetsAll, ih, List.map_cons]

theorem mapFacetsKind_eq_withChildren (k : StateKind State) :
    mapFacetsKind g k = k.withChildren (k.children.map (mapFacets g)) := by
  cases k <;> simp only [mapFacetsKind, mapFacetsAll_eq_map] <;> rfl

/-! ### What is changed and what is not -/

@[simp] theorem toFacets_mapFacets : (s.mapFacets g).toFacets = g s.toFacets := by
  cases s
  rw [mapFacets]

theorem kind_mapFacets : (s.mapFacets g).kind = mapFacetsKind g s.kind := by
  cases s
  rw [mapFacets]

@[simp] theorem children_mapFacets : (s.mapFacets g).children = s.children.map (mapFacets g) := by
  rw [children, kind_mapFacets, children]
  cases s.kind <;> simp only [mapFacetsKind, mapFacetsAll_eq_map, StateKind.children, List.map_nil]

@[simp] theorem type_mapFacets : (s.mapFacets g).type = s.type := by
  rw [type, kind_mapFacets, type]
  cases s.kind <;> simp only [mapFacetsKind, StateKind.type]

@[simp] theorem initial?_mapFacets : (s.mapFacets g).initial? = s.initial? := by
  rw [initial?, kind_mapFacets, initial?]
  cases s.kind <;> simp only [mapFacetsKind]

/-- The states of the tree are changed one by one. -/
theorem preorder_mapFacets : (s.mapFacets g).preorder = s.preorder.map (mapFacets g) := by
  induction s using State.induction with
  | step s ih =>
    rw [preorder_eq_cons, children_mapFacets, List.flatMap_map, preorder_eq_cons s, List.map_cons,
      List.map_flatMap]
    exact congrArg _ (List.flatMap_congr ih)

theorem ids_mapFacets (hid : ∀ f, (g f).id = f.id) : (s.mapFacets g).ids = s.ids := by
  rw [ids, preorder_mapFacets, List.map_map, ids]
  refine List.map_congr_left fun u _ ↦ ?_
  rw [Function.comp_apply, toFacets_mapFacets, hid]

/-! ### Comparing changes -/

theorem mapFacetsKind_eq_iff {k : StateKind State} :
    mapFacetsKind g k = mapFacetsKind h k ↔
      ∀ c ∈ k.children, c.mapFacets g = c.mapFacets h := by
  cases k <;> simp only [mapFacetsKind, mapFacetsAll_eq_map, StateKind.children,
    StateKind.compound.injEq, StateKind.parallel.injEq, List.map_inj_left, true_and,
    List.not_mem_nil, false_implies, implies_true]

/-- **Changes of a tree are the same** exactly if they are the same for every state of it. -/
theorem mapFacets_eq_iff :
    s.mapFacets g = s.mapFacets h ↔ ∀ u ∈ s.preorder, g u.toFacets = h u.toFacets := by
  induction s using State.induction with
  | step s ih =>
    -- equal trees have equal roots and, by the induction hypothesis, equal states below them
    have hself : s.mapFacets g = s.mapFacets h ↔
        g s.toFacets = h s.toFacets ∧ mapFacetsKind g s.kind = mapFacetsKind h s.kind := by
      obtain ⟨f, k⟩ := s
      rw [mapFacets, mapFacets, State.mk.injEq]
    have hchildren : mapFacetsKind g s.kind = mapFacetsKind h s.kind ↔
        ∀ c ∈ s.children, ∀ u ∈ c.preorder, g u.toFacets = h u.toFacets := by
      rw [mapFacetsKind_eq_iff]
      exact forall₂_congr ih
    rw [hself, hchildren]
    constructor
    · rintro ⟨hs, hbelow⟩ u hu
      rcases mem_preorder_iff.1 hu with rfl | ⟨c, hc, hu⟩
      · exact hs
      · exact hbelow c hc u hu
    · intro hall
      exact ⟨hall s (mem_preorder_self s), fun c hc u hu ↦
        hall u (mem_preorder_of_mem_children hc hu)⟩

theorem mapFacets_id : s.mapFacets (fun f ↦ f) = s := by
  induction s using State.induction with
  | step s ih =>
    obtain ⟨f, k⟩ := s
    have hmap : ∀ ss : List State, (∀ c ∈ ss, c.mapFacets (fun f ↦ f) = c) →
        ss.map (mapFacets fun f ↦ f) = ss := fun ss hss ↦
      (List.map_congr_left hss).trans (List.map_id' ss)
    rw [mapFacets, State.mk.injEq]
    refine ⟨rfl, ?_⟩
    cases k with
    | compound initial states => rw [mapFacetsKind, mapFacetsAll_eq_map, hmap states ih]
    | parallel states => rw [mapFacetsKind, mapFacetsAll_eq_map, hmap states ih]
    | atomic | final _ | history _ => rw [mapFacetsKind]

/-- A tree stays as it is exactly if each of its states does. -/
theorem mapFacets_eq_self_iff :
    s.mapFacets g = s ↔ ∀ u ∈ s.preorder, g u.toFacets = u.toFacets := by
  have h := mapFacets_eq_iff g (fun f ↦ f) s
  rwa [mapFacets_id] at h

end State

/-! ### Changing transitions -/

/-- The facets with other transitions, which depend on those that are there and on the id. -/
def Facets.mapTransitions (g : String → List Transition → List Transition) (f : Facets) : Facets :=
  { f with transitions := g f.id f.transitions }

/-- The machine with the transitions of each state changed. -/
def Machine.mapTransitions (g : String → List Transition → List Transition) (m : Machine) :
    Machine :=
  ⟨m.root.mapFacets (Facets.mapTransitions g), m.context⟩

variable {g h : String → List Transition → List Transition} {m : Machine}

theorem Facets.mapTransitions_eq_iff {f : Facets} :
    f.mapTransitions g = f.mapTransitions h ↔ g f.id f.transitions = h f.id f.transitions := by
  rw [mapTransitions, mapTransitions, Facets.mk.injEq]
  simp only [true_and, and_true]

theorem Facets.mapTransitions_eq_self_iff {f : Facets} :
    f.mapTransitions g = f ↔ g f.id f.transitions = f.transitions :=
  Facets.mapTransitions_eq_iff (h := fun _ ts ↦ ts)

namespace Machine

theorem mapTransitions_eq_self_iff :
    m.mapTransitions g = m ↔ ∀ s ∈ m.root.preorder, g s.id s.transitions = s.transitions := by
  have hroot : m.mapTransitions g = m ↔ m.root.mapFacets (Facets.mapTransitions g) = m.root := by
    cases m
    rw [mapTransitions, Machine.mk.injEq, and_iff_left rfl]
  rw [hroot, State.mapFacets_eq_self_iff]
  exact forall₂_congr fun _ _ ↦ Facets.mapTransitions_eq_self_iff

theorem mapTransitions_congr
    (hgh : ∀ s ∈ m.root.preorder, g s.id s.transitions = h s.id s.transitions) :
    m.mapTransitions g = m.mapTransitions h := by
  have hroot : m.root.mapFacets (Facets.mapTransitions g) =
      m.root.mapFacets (Facets.mapTransitions h) :=
    (State.mapFacets_eq_iff _ _ m.root).2 fun s hs ↦ Facets.mapTransitions_eq_iff.2 (hgh s hs)
  rw [mapTransitions, hroot, mapTransitions]

/-- The states of the changed machine are those of the machine, with their transitions changed. -/
theorem exists_of_mem_preorder_mapTransitions {s : State}
    (hs : s ∈ (m.mapTransitions g).root.preorder) :
    ∃ u ∈ m.root.preorder, s.id = u.id ∧ s.transitions = g u.id u.transitions := by
  rw [mapTransitions, State.preorder_mapFacets] at hs
  obtain ⟨u, hu, rfl⟩ := List.mem_map.1 hs
  rw [State.toFacets_mapFacets]
  exact ⟨u, hu, rfl, rfl⟩

end Machine

/-! ### Well-formed machines -/

section

variable (hmem : ∀ id ts, ∀ t ∈ g id ts, t ∈ ts)

include hmem

theorem State.Regular.mapTransitions {s : State} (hs : s.Regular) :
    (s.mapFacets (Facets.mapTransitions g)).Regular := by
  have hkeys : (s.mapFacets (Facets.mapTransitions g)).children.map (·.key) =
      s.children.map (·.key) := by
    rw [State.children_mapFacets, List.map_map]
    refine List.map_congr_left fun c _ ↦ ?_
    rw [Function.comp_apply, State.toFacets_mapFacets]
    rfl
  refine ⟨hkeys ▸ hs.keys_nodup, ?_, ?_, ?_⟩
  · rw [State.initial?_mapFacets, hkeys]
    exact hs.initial_mem
  · rw [State.type_mapFacets, State.children_mapFacets]
    exact fun hparallel ↦ mt List.map_eq_nil_iff.1 (hs.children_ne_nil hparallel)
  · rw [State.toFacets_mapFacets]
    exact fun t ht ↦ hs.source_eq t (hmem _ _ t ht)

/-- A machine stays well formed if no transitions are added. -/
theorem Machine.WellFormed.mapTransitions (hm : m.WellFormed) :
    (m.mapTransitions g).WellFormed := by
  have hids : (m.mapTransitions g).root.ids = m.root.ids := State.ids_mapFacets _ _ fun _ ↦ rfl
  refine ⟨hids ▸ hm.ids_nodup, ?_, ?_⟩
  · rw [Machine.mapTransitions, State.preorder_mapFacets, List.forall_mem_map]
    exact fun s hs ↦ (hm.regular s hs).mapTransitions hmem
  · intro s hs t ht
    obtain ⟨u, hu, -, htransitions⟩ := Machine.exists_of_mem_preorder_mapTransitions hs
    rw [htransitions] at ht
    rw [hids]
    exact hm.target_mem u hu t (hmem _ _ t ht)

end

end Statechart
