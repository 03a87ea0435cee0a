import Statechart.Proofs.Generate.Assembly
import Statechart.Proofs.Generate.Claims
import Statechart.Proofs.WellFormed
import Mathlib.Data.List.Nodup

/-!
# Generated machines are well formed

A shape is *regular* if its compound and parallel states have children, its leaves have none, and
all regions of its parallel states are compound. A machine that is assembled from a regular shape
has the shape (`State.HasShape`) and is well formed, whatever its updates say about where a state
starts, as long as the transitions among them go to states of the layout:
`Assembly.wellGenerated_build_layout`.

That the ids are distinct is known of the layout (`Shape.nodup_ids_layout`).
-/

namespace Statechart

/-! ### Shapes -/

namespace Shape

/-- Compound and parallel states have children, leaves have none, and regions are compound. -/
structure Regular (s : Shape) : Prop where
  children_iff : ∀ u ∈ s.preorder,
    u.children.isEmpty = false ↔ u.type = .compound ∨ u.type = .parallel
  region_type : ∀ u ∈ s.preorder, u.type = .parallel → ∀ c ∈ u.children, c.type = .compound

instance (s : Shape) : Decidable s.Regular :=
  decidable_of_iff
    ((∀ u ∈ s.preorder, u.children.isEmpty = false ↔ u.type = .compound ∨ u.type = .parallel) ∧
      ∀ u ∈ s.preorder, u.type = .parallel → ∀ c ∈ u.children, c.type = .compound)
    ⟨fun h ↦ ⟨h.1, h.2⟩, fun h ↦ ⟨h.children_iff, h.region_type⟩⟩

namespace Regular

variable {s c u : Shape} (h : s.Regular)

include h

theorem leavesBare : s.LeavesBare := fun u hu ↦ (h.children_iff u hu).1

theorem of_mem_children (hc : c ∈ s.children) : c.Regular :=
  ⟨fun u hu ↦ h.children_iff u (mem_preorder_of_mem_children hc hu),
    fun u hu ↦ h.region_type u (mem_preorder_of_mem_children hc hu)⟩

theorem children_ne_nil (hu : u ∈ s.preorder) (htype : u.type = .compound ∨ u.type = .parallel) :
    u.children ≠ [] :=
  List.isEmpty_eq_false_iff.1 ((h.children_iff u hu).2 htype)

end Regular

end Shape

/-! ### The shape of a machine -/

/-- The state is of the type of the shape, and its children have the shapes of the children. -/
inductive State.HasShape : State → Shape → Prop where
  | of {s : State} {d : Shape} (type_eq : s.type = d.type)
      (children : List.Forall₂ HasShape s.children d.children) : HasShape s d

namespace State.HasShape

variable {s u : State} {d : Shape}

theorem type_eq (h : s.HasShape d) : s.type = d.type := by
  cases h with
  | of htype _ => exact htype

theorem children (h : s.HasShape d) : List.Forall₂ HasShape s.children d.children := by
  cases h with
  | of _ hchildren => exact hchildren

theorem children_eq_nil_iff (h : s.HasShape d) : s.children = [] ↔ d.children = [] := by
  rw [← List.length_eq_zero_iff, h.children.length_eq, List.length_eq_zero_iff]

/-- Every child has the shape of a child. -/
theorem exists_of_mem_children (h : s.HasShape d) (hu : u ∈ s.children) :
    ∃ e ∈ d.children, u.HasShape e := by
  obtain ⟨i, hi, rfl⟩ := List.getElem_of_mem hu
  have hlt : i < d.children.length := h.children.length_eq ▸ hi
  exact ⟨d.children[i], List.getElem_mem hlt, h.children.get hi hlt⟩

/-- Every state of the tree has the shape of one that is in the shape. -/
theorem exists_of_mem_preorder (h : s.HasShape d) (hu : u ∈ s.preorder) :
    ∃ e ∈ d.preorder, u.HasShape e := by
  induction s using State.induction generalizing d with
  | step s ih =>
    rcases mem_preorder_iff.1 hu with rfl | ⟨c, hc, hu⟩
    · exact ⟨d, d.mem_preorder_self, h⟩
    · obtain ⟨b, hb, hshape⟩ := h.exists_of_mem_children hc
      obtain ⟨e, he, hue⟩ := ih c hc hshape hu
      exact ⟨e, Shape.mem_preorder_of_mem_children hb he, hue⟩

end State.HasShape

namespace Assembly

/-- **One state** has the shape if its children have the shapes of the children. -/
theorem hasShape_assembled {d : Shape} (h : d.Regular) {children : List State}
    (hchildren : List.Forall₂ State.HasShape children d.children) (id : String)
    (us : List Update) (n : Nat) :
    (assembled id d.type (us.foldl (Draft.update id) {}) n children).HasShape d := by
  have hnil : children = [] ↔ d.children = [] := by
    rw [← List.length_eq_zero_iff, hchildren.length_eq, List.length_eq_zero_iff]
  have hown : children ≠ [] → d.type = .compound ∨ d.type = .parallel := fun hne ↦
    h.leavesBare d d.mem_preorder_self (List.isEmpty_eq_false_iff.2 (mt hnil.2 hne))
  refine .of ((received_assembled hown n us).type_eq.trans (if_neg ?_)) ?_
  · rintro ⟨hcompound, hempty⟩
    rw [children_assembled hown] at hempty
    exact h.children_ne_nil d.mem_preorder_self (.inl hcompound) (hnil.1 hempty)
  · rw [children_assembled hown]
    exact hchildren

/-- **What is assembled has the shape** from which it was laid out. -/
theorem hasShape_state {d : Shape} (h : d.Regular) (pool : NamePool) (p : Progress) :
    (state p (Shape.place pool d).1).1.HasShape d := by
  induction pool, d using Shape.place_induction (fun pool ds ↦ (∀ d ∈ ds, d.Regular) →
    ∀ p, List.Forall₂ State.HasShape (states p (Shape.placeAll pool ds).1).1 ds)
    generalizing p with
  | nil pool => exact .nil
  | cons pool d ds hd hds hregular p =>
    obtain ⟨hfirst, hrest⟩ := List.forall_mem_cons.1 hregular
    rw [Shape.placeAll, states]
    exact .cons (hd hfirst p) (hds hrest _)
  | step pool d hbelow =>
    rw [Shape.place_eq, state_eq]
    exact hasShape_assembled h (hbelow (fun c hc ↦ h.of_mem_children hc) _) _ _ _

end Assembly

/-! ### What updates say of a state -/

namespace Update

/-- The transitions that an update drafts. -/
def drafts : Update → List TransitionDraft
  | .on _ t | .always t | .after t | .onDone t => [t]
  | .invoke (some i) => i.onDone.toList ++ i.onError.toList
  | _ => []

/-- What an update adds to a state starts there and goes where it is drafted to go. -/
theorem source_eq_and_exists_of_mem {u : Update} {id : String} {t : Transition}
    (ht : t ∈ u.transitions id) :
    t.source = id ∧ ∃ draft ∈ u.drafts, t.targets = draft.target.toList := by
  have hdraft : ∀ (event : String) (draft : TransitionDraft), draft ∈ u.drafts →
      t = Assembly.transition id event draft →
      t.source = id ∧ ∃ draft ∈ u.drafts, t.targets = draft.target.toList := by
    rintro event draft hmem rfl
    exact ⟨rfl, draft, hmem, rfl⟩
  cases u with
  | on _ draft | always draft | after draft | onDone draft =>
    exact hdraft _ draft List.mem_cons_self (List.mem_singleton.1 ht)
  | invoke i =>
    cases i with
    | none => exact absurd ht List.not_mem_nil
    | some i =>
      rcases List.mem_append.1 ht with ht | ht
      · obtain ⟨draft, hsome, rfl⟩ := Option.map_eq_some_iff.1 (Option.mem_toList.1 ht)
        exact hdraft _ draft (List.mem_append_left _ (Option.mem_toList.2 hsome)) rfl
      · obtain ⟨draft, hsome, rfl⟩ := Option.map_eq_some_iff.1 (Option.mem_toList.1 ht)
        exact hdraft _ draft (List.mem_append_right _ (Option.mem_toList.2 hsome)) rfl
  | initial _ | doneData _ => exact absurd ht List.not_mem_nil

end Update

namespace State.Received

variable {s : State} {n : Nat} {type : StateType} {us : List Update} (h : s.Received n type us)

include h

theorem key_eq : s.key = s.id := congrArg Facets.key h.facets_eq

theorem transitions_eq : s.transitions = us.flatMap (Update.transitions s.id) :=
  congrArg Facets.transitions h.facets_eq

/-- A number is counted around, so it always leads to a child. -/
theorem initial_mem {key : String} (hkey : s.initial? = some key) :
    key ∈ s.children.map (·.key) := by
  rw [h.initial?_eq] at hkey
  split at hkey
  · obtain ⟨c, hc, rfl⟩ := Option.map_eq_some_iff.1 hkey
    exact List.mem_map_of_mem (List.mem_of_getElem? hc)
  · cases hkey

/-- What holds of a transition that an update adds. -/
theorem exists_of_mem_transitions {t : Transition} (ht : t ∈ s.transitions) :
    t.source = s.id ∧ ∃ u ∈ us, ∃ draft ∈ u.drafts, t.targets = draft.target.toList := by
  rw [h.transitions_eq] at ht
  obtain ⟨u, hu, ht⟩ := List.mem_flatMap.1 ht
  obtain ⟨hsource, hdraft⟩ := Update.source_eq_and_exists_of_mem ht
  exact ⟨hsource, u, hu, hdraft⟩

end State.Received

theorem State.exists_initial?_of_type {s : State} (h : s.type = .compound) :
    ∃ key, s.initial? = some key := by
  obtain ⟨f, k⟩ := s
  cases k with
  | compound key _ => exact ⟨key, rfl⟩
  | _ => cases h

/-! ### Whole machines -/

namespace Assembly

section

variable {d : Shape} (h : d.Regular) (updates : List (List Update))

include h

theorem assembled_layout :
    Assembled { updates } d.layout.preorder (build d.layout updates).machine.root.preorder
      (state { updates } d.layout).2 :=
  assembled_state (Shape.leavesBare_place h.leavesBare .empty) _

theorem ids_build : (build d.layout updates).machine.root.ids = d.layout.ids :=
  (assembled_layout h updates).map_id

/-- Each state has received one of the lists of updates, or nothing at all. -/
theorem exists_received {s : State} (hs : s ∈ (build d.layout updates).machine.root.preorder) :
    ∃ n type us, (∀ u ∈ us, ∃ vs ∈ updates, u ∈ vs) ∧ s.Received n type us := by
  obtain ⟨k, hk⟩ := List.mem_iff_getElem?.1 hs
  obtain ⟨type, -, hreceived⟩ := (assembled_layout h updates).received hk
  refine ⟨_, type, _, fun u hu ↦ ?_, hreceived⟩
  rw [List.getD_eq_getElem?_getD] at hu
  cases hupdates : updates[k]? with
  | none =>
    rw [hupdates] at hu
    exact absurd hu List.not_mem_nil
  | some us =>
    rw [hupdates] at hu
    exact ⟨us, List.mem_of_getElem? hupdates, hu⟩

theorem hasShape_build : (build d.layout updates).machine.root.HasShape d :=
  hasShape_state h .empty _

variable {updates} {s : State} (hs : s ∈ (build d.layout updates).machine.root.preorder)

include hs

theorem key_eq_id : s.key = s.id := by
  obtain ⟨_, _, _, -, hreceived⟩ := exists_received h updates hs
  exact hreceived.key_eq

/-- The children of a state are told apart by their ids, so by their keys. -/
theorem nodup_keys : (s.children.map (·.key)).Nodup := by
  have hsub : (s.children.map (·.id)).Sublist
      (build d.layout updates).machine.root.ids :=
    (s.children_sublist_preorder.trans (State.preorder_sublist_of_mem hs)).map _
  have hkeys : s.children.map (·.key) = s.children.map (·.id) :=
    List.map_congr_left fun c hc ↦ key_eq_id h (State.mem_preorder_of_parent hs hc)
  rw [hkeys]
  rw [ids_build h] at hsub
  exact hsub.nodup d.nodup_ids_layout

/-- **Each state is sound.** -/
theorem regular_of_mem_build : s.Regular := by
  obtain ⟨_, _, _, -, hreceived⟩ := exists_received h updates hs
  obtain ⟨e, he, hshape⟩ := (hasShape_build h updates).exists_of_mem_preorder hs
  refine ⟨nodup_keys h hs, fun key ↦ hreceived.initial_mem, fun htype ↦ ?_, fun t ht ↦ ?_⟩
  · rw [Ne, hshape.children_eq_nil_iff]
    exact h.children_ne_nil he (.inr (hshape.type_eq ▸ htype))
  · exact (hreceived.exists_of_mem_transitions ht).1

/-- A compound state starts in one of its children. -/
theorem exists_initial_of_mem_build (htype : s.type = .compound) :
    ∃ c ∈ s.children, s.initial? = some c.key := by
  obtain ⟨key, hkey⟩ := State.exists_initial?_of_type htype
  obtain ⟨c, hc, rfl⟩ := List.mem_map.1 ((regular_of_mem_build h hs).initial_mem key hkey)
  exact ⟨c, hc, hkey⟩

/-- The regions of a parallel state are compound. -/
theorem type_of_mem_region (htype : s.type = .parallel) {c : State} (hc : c ∈ s.children) :
    c.type = .compound := by
  obtain ⟨e, he, hshape⟩ := (hasShape_build h updates).exists_of_mem_preorder hs
  obtain ⟨b, hb, hregion⟩ := hshape.exists_of_mem_children hc
  rw [hregion.type_eq]
  exact h.region_type e he (hshape.type_eq ▸ htype) b hb

end

end Assembly

/-- What can be relied on in a machine that was generated from a shape. -/
structure Machine.WellGenerated (m : Machine) (d : Shape) : Prop where
  wellFormed : m.WellFormed
  hasShape : m.root.HasShape d
  ids_eq : m.root.ids = d.layout.ids
  key_eq_id : ∀ s ∈ m.root.preorder, s.key = s.id
  /-- Compound states start in one of their children. -/
  initial : ∀ s ∈ m.root.preorder, s.type = .compound → ∃ c ∈ s.children, s.initial? = some c.key
  /-- Parallel states have regions, and these are compound and have children. -/
  regions : ∀ s ∈ m.root.preorder, s.type = .parallel →
    s.children ≠ [] ∧ ∀ c ∈ s.children, c.type = .compound ∧ c.children ≠ []

namespace Assembly

/-- **Generated machines are well formed.** From a regular shape, and updates that only go to states
of its layout, comes a machine of this shape that is well formed and whose states have the ids of
the layout for keys. Every compound state starts in one of its children, whatever the updates
say. -/
theorem wellGenerated_build_layout {d : Shape} (h : d.Regular) {updates : List (List Update)}
    (htargets : ∀ us ∈ updates, ∀ u ∈ us, ∀ t ∈ u.drafts, ∀ id ∈ t.target, id ∈ d.layout.ids) :
    (build d.layout updates).machine.WellGenerated d := by
  have hids := ids_build h updates
  have htarget : ∀ s ∈ (build d.layout updates).machine.root.preorder, ∀ t ∈ s.transitions,
      ∀ id ∈ t.targets, id ∈ (build d.layout updates).machine.root.ids := by
    intro s hs t ht id hid
    obtain ⟨_, _, us, hus, hreceived⟩ := exists_received h updates hs
    obtain ⟨-, u, hu, draft, hdraft, heq⟩ := hreceived.exists_of_mem_transitions ht
    obtain ⟨vs, hvs, hu⟩ := hus u hu
    rw [heq, Option.mem_toList] at hid
    rw [hids]
    exact htargets vs hvs u hu draft hdraft id hid
  refine ⟨⟨hids ▸ d.nodup_ids_layout, fun s hs ↦ regular_of_mem_build h hs, htarget⟩,
    hasShape_build h updates, hids, fun s hs ↦ key_eq_id h hs,
    fun s hs ↦ exists_initial_of_mem_build h hs, fun s hs htype ↦ ?_⟩
  refine ⟨(regular_of_mem_build h hs).children_ne_nil htype, fun c hc ↦ ?_⟩
  have hcompound : c.type = .compound := type_of_mem_region h hs htype hc
  obtain ⟨b, hb, -⟩ :=
    exists_initial_of_mem_build h (State.mem_preorder_of_parent hs hc) hcompound
  exact ⟨hcompound, List.ne_nil_of_mem hb⟩

end Assembly

/-- A journey on which two roads and two rests would like to have the same name. -/
def Shape.journey : Shape :=
  ⟨.compound, "trip", [
    ⟨.parallel, "away", [
      ⟨.compound, "road", [.leaf .atomic "rest", .leaf .history "road"]⟩,
      ⟨.compound, "talk", [.leaf .atomic "rest"]⟩]⟩,
    .leaf .final "home"]⟩

/-- Updates for the journey. They count children around, and go to states by the ids that these
get. -/
def Update.journey : List (List Update) :=
  [[.initial 3, .on "leave" { target := some "away" }],
    [.onDone { target := some "home" }],
    [.initial 5, .after { target := some "rest6", delay := some (.millis 10) }, .initial 2],
    [.invoke (some { id := "map", source := "atlas", onDone := some { target := some "road4" } })],
    [], [], [.always { target := some "trip" }], [.doneData .null, .initial 7]]

theorem Assembly.wellGenerated_build_layout_journey :
    Shape.journey.Regular ∧
      (∀ us ∈ Update.journey, ∀ u ∈ us, ∀ t ∈ u.drafts, ∀ id ∈ t.target,
        id ∈ Shape.journey.layout.ids) ∧
      (build Shape.journey.layout Update.journey).machine.WellGenerated .journey ∧
        (build Shape.journey.layout Update.journey).machine.root.preorder.map
            (fun s ↦ (s.id, s.initial?)) =
          [("trip", some "home"), ("away", none), ("road", some "rest"), ("rest", none),
            ("road4", none), ("talk", some "rest6"), ("rest6", none), ("home", none)] := by
  have hregular : Shape.journey.Regular := by decide
  have hids : Shape.journey.layout.ids =
      ["trip", "away", "road", "rest", "road4", "talk", "rest6", "home"] := by decide +kernel
  have htargets : ∀ us ∈ Update.journey, ∀ u ∈ us, ∀ t ∈ u.drafts, ∀ id ∈ t.target,
      id ∈ Shape.journey.layout.ids := by
    rw [hids]
    decide
  exact ⟨hregular, htargets, wellGenerated_build_layout hregular htargets, by decide +kernel⟩

end Statechart
