import Statechart.Proofs.Facets
import Statechart.Proofs.Walk

/-!
# A machine and its transitions

A machine falls into two parts. One is the machine with no transitions left,
`Machine.withoutTransitions`; the other one is the list of the transitions of each state in the
order of the walk, `Machine.transitionLists`. Together they are all there is to it:
`Machine.eq_of_transitionLists_eq`.
-/

namespace Statechart

namespace State

/-- A state is what it is without its children, and its children. -/
theorem eq_of_bare_eq {s t : State} (hbare : s.bare = t.bare)
    (hchildren : s.children = t.children) : s = t := by
  obtain ⟨f, k⟩ := s
  obtain ⟨g, l⟩ := t
  obtain ⟨rfl, hkind⟩ := State.mk.inj hbare
  obtain rfl : k = l := by
    cases k <;> cases l <;> cases hkind
    · rfl
    · exact congrArg (StateKind.compound _) hchildren
    · exact congrArg StateKind.parallel hchildren
    · rfl
    · rfl
  rfl

theorem mapFacets_mapFacets (g h : Facets → Facets) (s : State) :
    (s.mapFacets g).mapFacets h = s.mapFacets fun f ↦ h (g f) := by
  induction s using State.induction with
  | step s ih =>
    obtain ⟨f, k⟩ := s
    have hmap : ∀ ss : List State,
        (∀ c ∈ ss, (c.mapFacets g).mapFacets h = c.mapFacets fun f ↦ h (g f)) →
          (ss.map (mapFacets g)).map (mapFacets h) = ss.map (mapFacets fun f ↦ h (g f)) :=
      fun ss hss ↦ List.map_map.trans (List.map_congr_left hss)
    simp only [mapFacets, State.mk.injEq, true_and]
    cases k with
    | compound initial states => simp only [mapFacetsKind, mapFacetsAll_eq_map, hmap states ih]
    | parallel states => simp only [mapFacetsKind, mapFacetsAll_eq_map, hmap states ih]
    | atomic | final _ | history _ => simp only [mapFacetsKind]

/-- The state with no transitions left in its tree. -/
def withoutTransitions (s : State) : State := s.mapFacets (Facets.mapTransitions fun _ _ ↦ [])

theorem bare_withoutTransitions (s : State) :
    s.withoutTransitions.bare = ⟨s.toFacets.mapTransitions fun _ _ ↦ [], s.kind.bare⟩ := by
  obtain ⟨f, k⟩ := s
  rw [withoutTransitions, mapFacets, bare]
  cases k <;> simp only [mapFacetsKind] <;> rfl

theorem children_withoutTransitions (s : State) :
    s.withoutTransitions.children = s.children.map withoutTransitions := children_mapFacets _ s

theorem length_preorder_of_withoutTransitions_eq {s t : State}
    (h : s.withoutTransitions = t.withoutTransitions) :
    s.preorder.length = t.preorder.length := by
  have hlength := congrArg (fun u : State ↦ u.preorder.length) h
  simp only [withoutTransitions, preorder_mapFacets, List.length_map] at hlength
  exact hlength

/-- Trees of the same shapes have transitions at the same places. -/
theorem eq_of_map_withoutTransitions_eq {ss ts : List State}
    (hss : ∀ c ∈ ss, ∀ d : State, c.withoutTransitions = d.withoutTransitions →
      c.preorder.map (·.transitions) = d.preorder.map (·.transitions) → c = d)
    (h : ss.map withoutTransitions = ts.map withoutTransitions)
    (htransitions : (ss.flatMap preorder).map (·.transitions) =
      (ts.flatMap preorder).map (·.transitions)) : ss = ts := by
  induction ss generalizing ts with
  | nil => exact (List.map_eq_nil_iff.1 h.symm).symm
  | cons c ss ih =>
    cases ts with
    | nil => cases h
    | cons d ts =>
      obtain ⟨hc, hss⟩ := List.forall_mem_cons.1 hss
      obtain ⟨hfirst, hrest⟩ := List.cons.inj h
      rw [List.flatMap_cons, List.flatMap_cons, List.map_append, List.map_append] at htransitions
      obtain ⟨hfirst', hrest'⟩ := List.append_inj htransitions (by
        rw [List.length_map, List.length_map, length_preorder_of_withoutTransitions_eq hfirst])
      rw [hc d hfirst hfirst', ih hss hrest hrest']

/-- **A tree is told by its transitions and what is left without them.** -/
theorem eq_of_withoutTransitions_eq {s t : State} (h : s.withoutTransitions = t.withoutTransitions)
    (htransitions : s.preorder.map (·.transitions) = t.preorder.map (·.transitions)) : s = t := by
  induction s using State.induction generalizing t with
  | step s ih =>
    rw [preorder_eq_cons, preorder_eq_cons t, List.map_cons, List.map_cons] at htransitions
    obtain ⟨hself, hbelow⟩ := List.cons.inj htransitions
    have hchildren : s.children.map withoutTransitions = t.children.map withoutTransitions := by
      rw [← children_withoutTransitions, h, children_withoutTransitions]
    have hbare := congrArg State.bare h
    rw [bare_withoutTransitions, bare_withoutTransitions] at hbare
    obtain ⟨hfacets, hkind⟩ := State.mk.inj hbare
    have hback : ∀ f : Facets,
        { f.mapTransitions (fun _ _ ↦ []) with transitions := f.transitions } = f := fun _ ↦ rfl
    have hfacets' : s.toFacets = t.toFacets := by
      rw [← hback s.toFacets, hfacets, ← hback t.toFacets]
      exact congrArg (fun ts ↦ { t.toFacets with transitions := ts }) hself
    refine eq_of_bare_eq ?_ (eq_of_map_withoutTransitions_eq
      (fun c hc d hd hlists ↦ ih c hc hd hlists) hchildren hbelow)
    rw [bare, bare, hfacets', hkind]

end State

namespace Machine

variable (m : Machine)

/-- The machine with no transitions left. -/
def withoutTransitions : Machine := m.mapTransitions fun _ _ ↦ []

/-- The transitions of each state, in the order of the walk. -/
def transitionLists : List (List Transition) := m.root.preorder.map (·.transitions)

theorem allTransitions_root : m.root.allTransitions = m.transitionLists.flatten := by
  rw [State.allTransitions, State.states_eq_preorder, transitionLists, ← List.flatMap_def]

theorem withoutTransitions_mapTransitions (g : String → List Transition → List Transition) :
    (m.mapTransitions g).withoutTransitions = m.withoutTransitions :=
  congrArg (Machine.mk · m.context) (State.mapFacets_mapFacets _ _ m.root)

theorem transitionLists_mapTransitions (g : List Transition → List Transition) :
    (m.mapTransitions fun _ ts ↦ g ts).transitionLists = m.transitionLists.map g := by
  rw [transitionLists, mapTransitions, State.preorder_mapFacets, List.map_map, transitionLists,
    List.map_map]
  refine List.map_congr_left fun s _ ↦ ?_
  rw [Function.comp_apply, State.toFacets_mapFacets]
  rfl

/-- **A machine is told by its transitions and what is left without them.** -/
theorem eq_of_transitionLists_eq {m n : Machine}
    (h : m.withoutTransitions = n.withoutTransitions)
    (hlists : m.transitionLists = n.transitionLists) : m = n := by
  obtain ⟨r, c⟩ := m
  obtain ⟨q, d⟩ := n
  obtain ⟨hroot, hcontext⟩ := Machine.mk.inj h
  obtain rfl : c = d := hcontext
  obtain rfl : r = q := State.eq_of_withoutTransitions_eq hroot hlists
  rfl

end Machine

end Statechart
