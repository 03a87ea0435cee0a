import Statechart.Proofs.ConfigFacets
import Statechart.Proofs.Export.Reimport
import Statechart.Proofs.Import.Provenance
import Statechart.Proofs.Revision.Frame

/-!
# Invocations that are declared and invocations that are set

What an invocation stands for is spelled out in two places: an import does it for the invocations of
a config, and `PendingState.settle` for those that a mapper sets. Both number the invocations that
have no id, both put the outcome in the place of the event of a handler, and both tell from the
targets whether a transition is internal. But an import looks references up in its index, and a
revision takes what is not absolute for an id.

Where all handlers are written with absolute references the two agree
(`Machine.map_setInvocations_of_ofConfig`). All that is left of the difference is the order:
a revision puts the handlers after all transitions that a state has already.
-/

namespace Statechart

/-! ### Configs without invocations -/

/-- What a config says of its state, without the invocations. -/
def ConfigFacets.withoutInvocations (f : ConfigFacets) : ConfigFacets :=
  { f with invocations := [] }

theorem ConfigFacets.keepsForm_withoutInvocations : KeepsForm withoutInvocations :=
  ⟨fun _ ↦ rfl, fun _ ↦ rfl, fun _ ↦ rfl, fun _ ↦ rfl, fun _ ↦ rfl⟩

/-- The config with the invocations of all states left out. -/
def MachineConfig.withoutInvocations (c : MachineConfig) : MachineConfig :=
  ⟨c.root.mapFacets ConfigFacets.withoutInvocations, c.context⟩

/-- All targets of the handlers are written as absolute references to the states `ids`. -/
def InvocationConfig.HandlesWithin (ids : List String) (i : InvocationConfig) : Prop :=
  ∀ c ∈ i.onDone ++ i.onError, ∀ r ∈ c.targets, ∃ x ∈ ids, r = Reference.absolute x

instance (ids : List String) (i : InvocationConfig) : Decidable (i.HandlesWithin ids) :=
  inferInstanceAs (Decidable (∀ c ∈ i.onDone ++ i.onError, ∀ r ∈ c.targets,
    ∃ x ∈ ids, r = Reference.absolute x))

/-! ### Handlers after all other transitions -/

/-- Is it an outcome of an invocation? -/
def Origin.ofInvocation : Origin → Bool
  | .invocationDone _ | .invocationError _ => true
  | _ => false

namespace ConfigFacets

/-- The origins of the transitions that the sections declare. -/
def originsOf (es : List (Origin × List TransitionConfig)) : List Origin :=
  es.flatMap fun e ↦ e.2.map fun _ ↦ e.1

/-- The sections before those of the invocations. -/
def sectionsBefore (f : ConfigFacets) : List (Origin × List TransitionConfig) :=
  f.on.map (fun e ↦ (.on e.1, e.2)) ++ [(.onDone, f.onDone)]

/-- The sections of the invocations. -/
def invocationSections (f : ConfigFacets) : List (Origin × List TransitionConfig) :=
  f.invocations.zipIdx.flatMap fun (i, n) ↦
    [(.invocationDone n, i.onDone), (.invocationError n, i.onError)]

/-- The sections after those of the invocations. -/
def sectionsAfter (f : ConfigFacets) : List (Origin × List TransitionConfig) :=
  f.after.map (fun e ↦ (.after e.1, e.2)) ++ [(.always, f.always)]

variable (f : ConfigFacets)

theorem map_fst_declarations :
    f.declarations.map Prod.fst =
      originsOf f.sectionsBefore ++ originsOf f.invocationSections
        ++ originsOf f.sectionsAfter := by
  rw [originsOf, originsOf, originsOf, ← List.flatMap_append, ← List.flatMap_append, declarations,
    List.map_flatMap, sections, sectionsBefore, sectionsAfter, List.append_assoc _ _ [_]]
  simp only [List.map_map]
  rfl

/-- What holds of the origin of each section holds of each origin. -/
theorem forall_mem_originsOf {es : List (Origin × List TransitionConfig)} {motive : Origin → Prop}
    (h : ∀ o ∈ es.map Prod.fst, motive o) : ∀ o ∈ originsOf es, motive o := by
  intro o ho
  obtain ⟨e, he, ho⟩ := List.mem_flatMap.1 ho
  obtain ⟨-, -, rfl⟩ := List.mem_map.1 ho
  exact h e.1 (List.mem_map_of_mem he)

theorem ofInvocation_of_mem_sectionsBefore :
    ∀ o ∈ f.sectionsBefore.map Prod.fst, o.ofInvocation = false := by
  rw [sectionsBefore, List.map_append, List.map_map, List.forall_mem_append, List.forall_mem_map]
  exact ⟨fun _ _ ↦ rfl, List.forall_mem_singleton.2 rfl⟩

theorem ofInvocation_of_mem_sectionsAfter :
    ∀ o ∈ f.sectionsAfter.map Prod.fst, o.ofInvocation = false := by
  rw [sectionsAfter, List.map_append, List.map_map, List.forall_mem_append, List.forall_mem_map]
  exact ⟨fun _ _ ↦ rfl, List.forall_mem_singleton.2 rfl⟩

theorem ofInvocation_of_mem_invocationSections :
    ∀ o ∈ f.invocationSections.map Prod.fst, o.ofInvocation = true := by
  rw [invocationSections, List.map_flatMap]
  intro o ho
  obtain ⟨⟨i, n⟩, -, ho⟩ := List.mem_flatMap.1 ho
  rcases List.mem_pair.1 ho with rfl | rfl <;> rfl

end ConfigFacets

namespace Transition

/-- The transitions that were declared at an origin for which `keep` holds, if `origins` has the
origin of each. -/
def ofOrigin (keep : Origin → Bool) (origins : List Origin) (ts : List Transition) :
    List Transition :=
  ((ts.zip origins).filter fun e ↦ keep e.2).map Prod.fst

/-- The transitions with the handlers of invocations after all others. Both keep their order. -/
def handlersLast (origins : List Origin) (ts : List Transition) : List Transition :=
  ofOrigin (!·.ofInvocation) origins ts ++ ofOrigin (·.ofInvocation) origins ts

variable {keep : Origin → Bool} {origins : List Origin} {ts : List Transition}

theorem ofOrigin_append (h : ts.length = origins.length) (origins' : List Origin)
    (ts' : List Transition) :
    ofOrigin keep (origins ++ origins') (ts ++ ts') =
      ofOrigin keep origins ts ++ ofOrigin keep origins' ts' := by
  rw [ofOrigin, List.zip_append h, List.filter_append, List.map_append]
  rfl

theorem ofOrigin_of_forall (h : ts.length = origins.length) (hkeep : ∀ o ∈ origins, keep o = true) :
    ofOrigin keep origins ts = ts := by
  have hall : (ts.zip origins).filter (fun e ↦ keep e.2) = ts.zip origins :=
    List.filter_eq_self.2 fun e he ↦ hkeep e.2 (List.of_mem_zip he).2
  rw [ofOrigin, hall, List.map_fst_zip (Nat.le_of_eq h)]

theorem ofOrigin_eq_nil (hkeep : ∀ o ∈ origins, keep o = false) :
    ofOrigin keep origins ts = [] := by
  have hnone : (ts.zip origins).filter (fun e ↦ keep e.2) = [] :=
    List.filter_eq_nil_iff.2 fun e he ↦ Bool.eq_false_iff.1 (hkeep e.2 (List.of_mem_zip he).2)
  rw [ofOrigin, hnone, List.map_nil]

/-- Handlers that stand together come after all others together. -/
theorem handlersLast_append {before handlers after : List Transition} {os ps qs : List Origin}
    (hbefore : before.length = os.length) (hhandlers : handlers.length = ps.length)
    (hafter : after.length = qs.length) (hos : ∀ o ∈ os, o.ofInvocation = false)
    (hps : ∀ o ∈ ps, o.ofInvocation = true) (hqs : ∀ o ∈ qs, o.ofInvocation = false) :
    handlersLast (os ++ ps ++ qs) (before ++ handlers ++ after) = before ++ after ++ handlers := by
  have hnot : ∀ {rs : List Origin} {b : Bool}, (∀ o ∈ rs, o.ofInvocation = b) →
      ∀ o ∈ rs, (!o.ofInvocation) = !b := fun h o ho ↦ congrArg (!·) (h o ho)
  have hlength : (before ++ handlers).length = (os ++ ps).length := by
    rw [List.length_append, List.length_append, hbefore, hhandlers]
  rw [handlersLast, ofOrigin_append hlength, ofOrigin_append hlength, ofOrigin_append hbefore,
    ofOrigin_append hbefore, ofOrigin_of_forall hbefore (hnot hos), ofOrigin_eq_nil (hnot hps),
    ofOrigin_of_forall hafter (hnot hqs), ofOrigin_eq_nil hos, ofOrigin_of_forall hhandlers hps,
    ofOrigin_eq_nil hqs, List.append_nil, List.append_nil, List.nil_append]

end Transition

/-! ### Setting invocations -/

/-- The facets with other invocations, and their handlers after the transitions. -/
def Facets.withInvocations (is : List InvocationConfig) (f : Facets) : Facets :=
  { f with
    invocations := InvocationConfig.toInvocations f.id 0 is
    transitions := f.transitions ++ PendingState.invocationTransitions f.id 0 is }

theorem PendingState.settle_setInvocations (s : State) (is : List InvocationConfig) :
    ((of s).edit [.setInvocations is]).settle.state =
      ⟨s.toFacets.withInvocations is, s.kind.bare⟩ := by
  obtain ⟨f, k⟩ := s
  cases k with
  | atomic | compound _ _ | parallel _ | final _ | history _ => rfl

/-- Setting invocations in every state leaves the tree as it is. -/
theorem Machine.map_setInvocations (m : Machine) (is : String → List InvocationConfig) :
    m.map (fun p _ ↦ p.edit [.setInvocations (is p.base.id)]) =
      ⟨m.root.mapFacets fun f ↦ f.withInvocations (is f.id), m.context⟩ := by
  let mapper : Mapper Unit := fun _ p _ ↦ (p.edit [.setInvocations (is p.base.id)], ())
  have hroot : (m.root.revise mapper [] ()).1 =
      m.root.mapFacets fun f ↦ f.withInvocations (is f.id) :=
    State.revise_eq_mapFacets [] () (fun _ _ _ ↦ rfl)
      (fun _ s _ ↦ PendingState.settle_setInvocations s (is s.id)) m.root
  exact congrArg (Machine.mk · m.context) hroot

namespace Import

variable {ix : Index} {id : String} {path : List String}

/-! ### Handlers with absolute references -/

/-- **One handler.** A transition with absolute references is read the same way by an import and in
a revision. -/
theorem value_transition_of_absolute {event : String} {c : TransitionConfig}
    (h : ∀ r ∈ c.targets, ∃ x ∈ ix.ids, r = Reference.absolute x) :
    (transition ix .strict id path event none c).value =
      { Transition.ofConfig id c with event := event } := by
  have hid : ∀ x, TransitionConfig.targetId (Reference.absolute x) = x := fun x ↦ by
    rw [TransitionConfig.targetId, Index.absoluteId?_absolute, Option.getD_some]
  have hrefs : (Transition.ofConfig id c).targetRefs = c.targets := by
    rw [Transition.targetRefs, Transition.ofConfig, List.map_map]
    refine (List.map_congr_left fun r hr ↦ ?_).trans (List.map_id _)
    obtain ⟨x, -, rfl⟩ := h r hr
    rw [Function.comp_apply, hid]
    rfl
  have hmem : ∀ x ∈ (Transition.ofConfig id c).targets, x ∈ ix.ids := by
    rw [Transition.ofConfig, List.forall_mem_map]
    intro r hr
    obtain ⟨x, hx, rfl⟩ := h r hr
    rwa [hid]
  have htargets : ((Transition.ofConfig id c).targetRefs.filterMap fun r ↦
      (target ix .strict id path r).value) = (Transition.ofConfig id c).targets :=
    filterMap_targetRefs id hmem
  have hinternal := internalByDefault_targetRefs (Transition.ofConfig id c)
  rw [hrefs] at htargets hinternal
  rw [value_transition, assemble, htargets, hinternal, Transition.ofConfig, List.isEmpty_map]
  rfl

theorem flatMap_built_invocationGroups_of_absolute (n : Nat) {is : List InvocationConfig}
    (h : ∀ i ∈ is, i.HandlesWithin ix.ids) :
    (invocationGroups id n is).flatMap (built ix id path) =
      PendingState.invocationTransitions id n is := by
  have hbuilt : ∀ (event : String) (cs : List TransitionConfig),
      (∀ c ∈ cs, ∀ r ∈ c.targets, ∃ x ∈ ix.ids, r = Reference.absolute x) →
        built ix id path ⟨event, none, cs⟩ = PendingState.handlers id event cs := fun event cs hcs ↦
    List.map_congr_left fun c hc ↦ value_transition_of_absolute (hcs c hc)
  induction is generalizing n with
  | nil => rfl
  | cons i is ih =>
    obtain ⟨hi, his⟩ := List.forall_mem_cons.1 h
    obtain ⟨hdone, herror⟩ := List.forall_mem_append.1 hi
    rw [invocationGroups, List.flatMap_cons, List.flatMap_cons, hbuilt _ _ hdone,
      hbuilt _ _ herror, ih (n + 1) his, ← List.append_assoc]
    rfl

/-! ### The groups around those of the invocations -/

/-- The groups of a state that come before those of its invocations. -/
def groupsBefore (id : String) (f : ConfigFacets) : List Group :=
  f.on.map (fun e ↦ ⟨e.1, none, e.2⟩) ++ [⟨Event.doneState id, none, f.onDone⟩]

/-- The groups of a state that come after those of its invocations. -/
def groupsAfter (id : String) (f : ConfigFacets) : List Group :=
  f.after.map (fun e ↦ ⟨Event.after (Delay.ofKey e.1) id, some (Delay.ofKey e.1), e.2⟩)
    ++ [⟨Event.always, none, f.always⟩]

theorem groups_eq_append (id : String) (f : ConfigFacets) :
    groups id f = groupsBefore id f ++ invocationGroups id 0 f.invocations ++ groupsAfter id f := by
  rw [groups, groupsBefore, groupsAfter, List.append_assoc _ _ [_]]

theorem value_transitions_eq_append (ix : Index) (id : String) (path : List String)
    (f : ConfigFacets) :
    (transitions ix .strict id path f).value =
      (groupsBefore id f).flatMap (built ix id path)
        ++ (invocationGroups id 0 f.invocations).flatMap (built ix id path)
        ++ (groupsAfter id f).flatMap (built ix id path) := by
  rw [← List.flatMap_append, ← List.flatMap_append, ← groups_eq_append]
  exact value_transitions ix .strict id path f

/-- There is one transition for each that the sections declare. -/
theorem length_flatMap_built {gs : List Group} {es : List (Origin × List TransitionConfig)}
    (h : gs.map (·.transitions) = es.map Prod.snd) :
    (gs.flatMap (built ix id path)).length = (ConfigFacets.originsOf es).length := by
  have hlengths := congrArg (fun css ↦ (css.map List.length).sum) h
  simp only [List.map_map] at hlengths
  rw [ConfigFacets.originsOf, List.length_flatMap, List.length_flatMap]
  simp only [built, List.length_map]
  exact hlengths

/-- **The handlers of a state** are set as they are imported, but they come last. -/
theorem value_transitions_withoutInvocations (id : String) (path : List String) {f : ConfigFacets}
    (h : ∀ i ∈ f.invocations, i.HandlesWithin ix.ids) :
    (transitions ix .strict id path f.withoutInvocations).value
        ++ PendingState.invocationTransitions id 0 f.invocations =
      Transition.handlersLast (f.declarations.map Prod.fst)
        (transitions ix .strict id path f).value := by
  have hbefore : (groupsBefore id f).map (·.transitions) = f.sectionsBefore.map Prod.snd := by
    rw [groupsBefore, ConfigFacets.sectionsBefore, List.map_append, List.map_append, List.map_map,
      List.map_map]
    rfl
  have hafter : (groupsAfter id f).map (·.transitions) = f.sectionsAfter.map Prod.snd := by
    rw [groupsAfter, ConfigFacets.sectionsAfter, List.map_append, List.map_append, List.map_map,
      List.map_map]
    rfl
  have hinvocations : (invocationGroups id 0 f.invocations).map (·.transitions) =
      f.invocationSections.map Prod.snd := by
    rw [invocationGroups_eq_flatMap_zipIdx, ConfigFacets.invocationSections, List.map_flatMap,
      List.map_flatMap]
    rfl
  have hwithout : (transitions ix .strict id path f.withoutInvocations).value =
      (groupsBefore id f).flatMap (built ix id path)
        ++ (groupsAfter id f).flatMap (built ix id path) := by
    rw [value_transitions_eq_append, ConfigFacets.withoutInvocations, invocationGroups,
      List.flatMap_nil, List.append_nil]
    rfl
  rw [hwithout, value_transitions_eq_append, f.map_fst_declarations,
    Transition.handlersLast_append (length_flatMap_built hbefore)
      (length_flatMap_built hinvocations) (length_flatMap_built hafter)
      (ConfigFacets.forall_mem_originsOf f.ofInvocation_of_mem_sectionsBefore)
      (ConfigFacets.forall_mem_originsOf f.ofInvocation_of_mem_invocationSections)
      (ConfigFacets.forall_mem_originsOf f.ofInvocation_of_mem_sectionsAfter),
    flatMap_built_invocationGroups_of_absolute 0 h]

/-- What is left of a config without invocations has no problem that was not there before. -/
theorem problems_withoutInvocations_eq_nil {c : StateConfig} (h : c.problems ix id path = []) :
    (c.mapFacets ConfigFacets.withoutInvocations).problems ix id path = [] := by
  refine problems_mapFacets_eq_nil ConfigFacets.keepsForm_withoutInvocations
    (fun f id path hf ↦ ?_) h
  rw [ConfigFacets.targetProblems, List.map_eq_nil_iff, List.filter_eq_nil_iff] at hf ⊢
  refine fun r hr ↦ hf r ?_
  obtain ⟨t, ht, hr⟩ := List.mem_flatMap.1 hr
  refine List.mem_flatMap.2 ⟨t, ?_, hr⟩
  simp only [ConfigFacets.declared, ConfigFacets.withoutInvocations, List.mem_append,
    List.flatMap_nil, List.not_mem_nil, or_false] at ht ⊢
  tauto

end Import

namespace Machine

variable {c : MachineConfig} {m : Machine}

theorem ids_below_of_ofConfig (h : ofConfig c = .ok m) :
    (Index.below (c.root.id.getD defaultId) c.root.states).ids = m.root.ids := by
  rw [← State.ids_outline, outline_of_ofConfig h]
  exact Index.ids_below _ _ c.root

/-- The config that is found by the id of a state is the one that declares it. -/
theorem forall₂_facetsOf_of_ofConfig (h : ofConfig c = .ok m) :
    List.Forall₂ (fun s d ↦ c.facetsOf s.id = d.toConfigFacets) m.root.preorder
      c.root.preorder := by
  have hids : m.root.preorder.map (·.id) = c.named.map Prod.fst := by
    rw [← State.ids, ← State.ids_outline, outline_of_ofConfig h]
    exact (StateConfig.map_fst_named _ _ c.root).symm
  have hnodup : c.outline.ids.Nodup := (ofConfig_eq_ok_iff.1 h).1
  have hnamed : List.Forall₂ (fun x d ↦ c.facetsOf x = StateConfig.toConfigFacets d)
      (c.named.map Prod.fst) (c.named.map Prod.snd) :=
    Import.forall₂_map_map fun e he ↦ MachineConfig.facetsOf_of_mem_named hnodup he
  rw [← hids, List.forall₂_map_left_iff, MachineConfig.named, StateConfig.map_snd_named] at hnamed
  exact hnamed

theorem ofConfig_withoutInvocations (h : ofConfig c = .ok m) :
    let id := c.root.id.getD defaultId
    ofConfig c.withoutInvocations =
      .ok ⟨(Import.state (Index.below id c.root.states) .strict id id []
        c.withoutInvocations.root).value, c.context⟩ := by
  obtain ⟨hnodup, hproblems, -⟩ := ofConfig_eq_ok_iff.1 h
  have hform := ConfigFacets.keepsForm_withoutInvocations
  have hid : c.withoutInvocations.root.id = c.root.id := by
    rw [MachineConfig.withoutInvocations, StateConfig.toConfigFacets_mapFacets, hform.id_eq]
  have hindex : ∀ id, Index.below id c.withoutInvocations.root.states =
      Index.below id c.root.states := StateConfig.index_mapFacets c.root hform
  have hids : c.withoutInvocations.outline.ids = c.outline.ids := by
    rw [MachineConfig.outline, hid]
    exact StateConfig.ids_outline_mapFacets c.root hform _ _
  refine ofConfig_eq_ok_iff.2 ⟨hids ▸ hnodup, ?_, ?_⟩
  · rw [hid, hindex]
    exact Import.problems_withoutInvocations_eq_nil hproblems
  · rw [hid, hindex]
    rfl

/-- **Imports and revisions agree on invocations.** Take a config that imports and writes all
targets of its handlers as absolute references to its states. Without its invocations it imports as
well. If a mapper then gives the invocations of the config to the states that it declares them for,
the machine is the one that was imported, but in each state the handlers come after all other
transitions. -/
theorem map_setInvocations_of_ofConfig (h : ofConfig c = .ok m)
    (habsolute : ∀ d ∈ c.root.preorder, ∀ i ∈ d.invocations, i.HandlesWithin m.root.ids) :
    List.Forall₂ (fun s d ↦ c.facetsOf s.id = d.toConfigFacets ∧ s.DeclaredBy d) m.root.preorder
        c.root.preorder ∧
      ∃ m₀, ofConfig c.withoutInvocations = .ok m₀ ∧
        m₀.map (fun p _ ↦ p.edit [.setInvocations (c.facetsOf p.base.id).invocations]) =
          m.mapTransitions fun id ts ↦
            Transition.handlersLast ((c.facetsOf id).declarations.map Prod.fst) ts := by
  have hfacets := forall₂_facetsOf_of_ofConfig h
  have hwithout := ofConfig_withoutInvocations h
  rw [← ids_below_of_ofConfig h] at habsolute
  obtain ⟨hnodup, hproblems, rfl⟩ := ofConfig_eq_ok_iff.1 h
  refine ⟨hfacets.mp (fun _ _ ↦ And.intro)
    (Import.forall₂_declaredBy_preorder_value_state hproblems), _, hwithout, ?_⟩
  rw [map_setInvocations _ fun id ↦ (c.facetsOf id).invocations, mapTransitions]
  refine congrArg (Machine.mk · c.context) ?_
  refine Import.mapFacets_value_state_mapFacets ConfigFacets.keepsForm_withoutInvocations
    fun e he key path ↦ ?_
  have hmem : e.2 ∈ c.root.preorder := by
    rw [← StateConfig.map_snd_named (c.root.id.getD defaultId)]
    exact List.mem_map_of_mem he
  have hfound : c.facetsOf e.1 = e.2.toConfigFacets :=
    MachineConfig.facetsOf_of_mem_named hnodup he
  have hlast := Import.value_transitions_withoutInvocations e.1 path (habsolute e.2 hmem)
  simp only [Facets.withInvocations, Facets.mapTransitions, Import.facets, hfound, ← hlast]
  rfl

end Machine

/-- A kiosk that prints and wipes while it is busy. One of the two invocations has no id, and one
handler has a delay. -/
def MachineConfig.kiosk : MachineConfig where
  root := {
    id := some "kiosk"
    initial := some "idle"
    states := [
      ("idle", { on := [("coin", [.to ["busy"]])] }),
      ("busy", {
        id := some "busy"
        on := [("stop", [.to ["idle"]])]
        invocations := [
          { source := "print", onDone := [.to ["#kiosk.idle"]],
            onError := [{ targets := ["#busy"], delay := some (.named "pause") }] },
          { id := some "wipe", source := "wipe", onDone := [.to []] }]
        always := [.to []] })] }
  context := .null

theorem Machine.map_setInvocations_of_ofConfig_kiosk :
    ∃ m, ofConfig MachineConfig.kiosk = .ok m ∧
      (∀ d ∈ MachineConfig.kiosk.root.preorder, ∀ i ∈ d.invocations,
        i.HandlesWithin m.root.ids) ∧
        m.root.preorder.map (·.transitions.map (·.event)) =
          [[], ["coin"], ["stop", "done.invoke.busy:invocation[0]",
            "error.platform.busy:invocation[0]", "done.invoke.wipe", ""]] ∧
          ∃ m₀, ofConfig MachineConfig.kiosk.withoutInvocations = .ok m₀ ∧
            (m₀.map fun p _ ↦ p.edit
              [.setInvocations (MachineConfig.kiosk.facetsOf p.base.id).invocations]) =
                (m.mapTransitions fun id ts ↦ Transition.handlersLast
                  ((MachineConfig.kiosk.facetsOf id).declarations.map Prod.fst) ts) ∧
              (m.mapTransitions fun id ts ↦ Transition.handlersLast
                ((MachineConfig.kiosk.facetsOf id).declarations.map Prod.fst) ts).root.preorder.map
                  (·.transitions.map (·.event)) =
                    [[], ["coin"], ["stop", "", "done.invoke.busy:invocation[0]",
                      "error.platform.busy:invocation[0]", "done.invoke.wipe"]] := by
  have hok : ofConfig MachineConfig.kiosk = .ok _ := (ofConfig_eq _).trans (if_pos (by decide))
  have habsolute : ∀ d ∈ MachineConfig.kiosk.root.preorder, ∀ i ∈ d.invocations,
      i.HandlesWithin (check MachineConfig.kiosk).value.ids := by decide +kernel
  obtain ⟨-, m₀, hm₀, hmap⟩ := map_setInvocations_of_ofConfig hok habsolute
  exact ⟨_, hok, habsolute, by decide +kernel, m₀, hm₀, hmap, by decide +kernel⟩

end Statechart
