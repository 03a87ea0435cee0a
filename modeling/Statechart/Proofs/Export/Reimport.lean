import Statechart.Proofs.Export.Sections
import Statechart.Proofs.Facets
import Statechart.Proofs.Import.Soundness

/-!
# Importing an exported machine

The config of a machine has the outline of the machine. What can be wrong with it is said in terms
of the machine (`Import.problems_toConfig_eq_nil_iff`): states that cannot be entered, and targets
that do not resolve. All targets of a config in the long form are absolute, so none of them depends
on where the transition stands, and whether a transition is internal can be told from them.

Nothing is wrong with the config of a well-formed machine, and the state that an import builds from
the config of a state is that state, except that its transitions are `Transition.reread`.
-/

namespace Statechart

namespace State

open Transition

/-! ### The tree of the config -/

theorem toConfig_eq (s : State) :
    s.toConfig = ⟨ownConfig s.toFacets s.kind, childConfigs s.kind⟩ := by
  cases s
  rw [toConfig]

theorem configsInto_eq_append {kept : List (String × StateConfig)} {ss : List State}
    (h : (Keyed.keys kept ++ ss.map (·.key)).Nodup) :
    configsInto kept ss = kept ++ ss.map fun s ↦ (s.key, s.toConfig) := by
  induction ss generalizing kept with
  | nil => rw [configsInto, List.map_nil, List.append_nil]
  | cons s ss ih =>
    -- the key of the next state is new, so its config is put at the end
    have hnew : s.key ∉ Keyed.keys kept := fun hmem ↦
      (List.nodup_append.1 h).2.2 _ hmem _ List.mem_cons_self rfl
    have hput : Keyed.put s.key s.toConfig kept = kept ++ [(s.key, s.toConfig)] :=
      Keyed.put_of_not_mem hnew _
    have hkeys : Keyed.keys (kept ++ [(s.key, s.toConfig)]) = Keyed.keys kept ++ [s.key] :=
      List.map_append
    obtain ⟨f, k⟩ := s
    rw [configsInto, hput, ih, List.append_assoc, List.map_cons, List.singleton_append]
    rw [hkeys, List.append_assoc, List.singleton_append]
    exact h

/-- The config of a state declares its children, in their order. -/
theorem states_toConfig {s : State} (h : (s.children.map (·.key)).Nodup) :
    s.toConfig.states = s.children.map fun c ↦ (c.key, c.toConfig) := by
  have hkeys : (Keyed.keys ([] : List (String × StateConfig)) ++ s.children.map (·.key)).Nodup := h
  rw [toConfig_eq]
  obtain ⟨f, k⟩ := s
  cases k with
  | compound initial states => exact (configsInto_eq_append hkeys).trans (List.nil_append _)
  | parallel states => exact (configsInto_eq_append hkeys).trans (List.nil_append _)
  | atomic | final _ | history _ => rfl

theorem keys_states_toConfig {s : State} (h : (s.children.map (·.key)).Nodup) :
    Keyed.keys s.toConfig.states = s.children.map (·.key) := by
  rw [states_toConfig h, Keyed.keys, List.map_map]
  rfl

theorem states_toConfig_ne_nil {s : State} (h : s.Regular) (hcompound : s.type = .compound) :
    s.toConfig.states ≠ [] := by
  have hkeys : s.children.map (·.key) ≠ [] := by
    obtain ⟨f, k⟩ := s
    cases k with
    | compound initial states => exact List.ne_nil_of_mem (h.initial_mem initial rfl)
    | parallel _ | atomic | final _ | history _ => cases hcompound
  rw [← keys_states_toConfig h.keys_nodup] at hkeys
  exact fun hnil ↦ hkeys (congrArg Keyed.keys hnil)

/-- The config of a state names the id of the state. -/
theorem childId_toConfig (parent key : String) (s : State) :
    Index.childId parent key s.toConfig = s.id := by
  rw [toConfig_eq, Index.childId, ownConfig_eq]
  rfl

/-- Every state of the tree is sound by itself, and every target is in the index. -/
structure SoundIn (ix : Index) (s : State) : Prop where
  regular : ∀ u ∈ s.preorder, u.Regular
  target_mem : ∀ u ∈ s.preorder, ∀ t ∈ u.transitions, ∀ id ∈ t.targets, id ∈ ix.ids

namespace SoundIn

variable {ix : Index} {s c : State}

theorem regular_self (h : s.SoundIn ix) : s.Regular := h.regular s (mem_preorder_self s)

theorem target_mem_self (h : s.SoundIn ix) : ∀ t ∈ s.transitions, ∀ id ∈ t.targets, id ∈ ix.ids :=
  h.target_mem s (mem_preorder_self s)

theorem of_mem_children (h : s.SoundIn ix) (hc : c ∈ s.children) : c.SoundIn ix :=
  ⟨fun u hu ↦ h.regular u (mem_preorder_of_mem_children hc hu),
    fun u hu ↦ h.target_mem u (mem_preorder_of_mem_children hc hu)⟩

end SoundIn

/-- The config of a tree has the outline of the tree. -/
theorem outline_toConfig {s : State} (h : s.KeysDistinct) :
    s.toConfig.outline s.id s.key = s.outline := by
  induction s using State.induction with
  | step s ih =>
    rw [StateConfig.outline_eq, states_toConfig h.keys_nodup, List.map_map, outline_eq]
    refine congrArg _ (List.map_congr_left fun c hc ↦ ?_)
    rw [Function.comp_apply, childId_toConfig]
    exact ih c hc (h.of_mem_children hc)

/-- The config of a state has the kind of the state, so nothing is wrong with it exactly if the
state can be entered. -/
theorem kindProblems_toConfig_eq_nil_iff (id : String) {s : State}
    (h : (s.children.map (·.key)).Nodup) :
    s.toConfig.kindProblems id (Keyed.keys s.toConfig.states) = [] ↔ s.Enterable := by
  rw [keys_states_toConfig h, toConfig_eq, ownConfig_eq, ConfigFacets.kindProblems]
  obtain ⟨f, k⟩ := s
  cases k with
  | compound initial states =>
    show (if states.map (·.key) = [] then []
      else if initial ∈ states.map (·.key) then []
      else [Problem.unknownInitial id initial]) = [] ↔ _
    constructor
    · intro hnil
      refine ⟨fun (hne : states ≠ []) key hkey ↦ ?_, by simp [type, StateKind.type]⟩
      rw [if_neg (mt List.map_eq_nil_iff.1 hne)] at hnil
      by_contra hmem
      rw [← Option.some.inj hkey] at hmem
      exact absurd ((if_neg hmem).symm.trans hnil) (List.cons_ne_nil _ _)
    · intro henter
      split
      · rfl
      · next hne => exact if_pos (henter.initial_mem (mt List.map_eq_nil_iff.2 hne) initial rfl)
  | parallel states =>
    show (if states.map (·.key) = [] then [Problem.emptyParallel id] else []) = [] ↔ _
    constructor
    · intro hnil
      refine ⟨by simp [initial?], fun _ (hstates : states = []) ↦ ?_⟩
      rw [if_pos (List.map_eq_nil_iff.2 hstates)] at hnil
      exact absurd hnil (List.cons_ne_nil _ _)
    · intro henter
      exact if_neg (mt List.map_eq_nil_iff.1 (henter.children_ne_nil rfl))
  | atomic | final _ | history _ =>
    exact iff_of_true rfl ⟨by simp [initial?], by simp [type, StateKind.type]⟩

end State

namespace Import

open Transition

variable {ix : Index} {path : List String} {t : Transition}

/-! ### Transitions -/

theorem filterMap_targetRefs (id : String) (h : ∀ x ∈ t.targets, x ∈ ix.ids) :
    (t.targetRefs.filterMap fun r ↦ (target ix .strict id path r).value) = t.targets := by
  simp only [value_target_strict]
  rw [targetRefs, List.filterMap_map]
  refine (List.filterMap_congr fun x hx ↦ ?_).trans List.filterMap_some
  exact Index.resolve?_absolute path (h x hx)

/-- An absolute reference does not start at the source. -/
theorem internalByDefault_targetRefs (t : Transition) :
    internalByDefault t.targetRefs = t.targets.isEmpty := by
  have habsolute : ∀ x, Text.startsWith "." (Reference.absolute x) = false := by
    intro x
    rw [Bool.eq_false_iff]
    intro hstart
    obtain ⟨rest, hrest⟩ := Text.startsWith_iff.1 hstart
    exact Index.absolute_ne_relative x rest hrest
  rw [internalByDefault, targetRefs, List.any_map, List.isEmpty_map]
  cases h : t.targets with
  | nil => rfl
  | cons x xs =>
    rw [List.isEmpty_cons, Bool.false_or, List.any_eq_false]
    exact fun y _ ↦ Bool.eq_false_iff.1 (habsolute y)

theorem internal_toConfig (t : Transition) :
    t.toConfig.internal.getD (internalByDefault t.targetRefs) = t.internal := by
  rw [internalByDefault_targetRefs, Transition.toConfig]
  by_cases h : t.internal = t.targets.isEmpty
  · rw [if_pos (beq_iff_eq.2 h), Option.getD_none, h]
  · rw [if_neg (mt beq_iff_eq.1 h), Option.getD_some]

/-- **One transition.** What an import makes of an exported transition has the event and the delay
under which it was declared, and is otherwise the same. -/
theorem value_transition_toConfig (event : String) (delay d : Option Delay)
    (h : ∀ x ∈ t.targets, x ∈ ix.ids) :
    (transition ix .strict t.source path event delay
      { t.toConfig with event := none, delay := d }).value =
        { t with event := event, delay := delay <|> d } := by
  -- the targets and whether the transition is internal are all that an export writes differently
  have htargets : (t.targetRefs.filterMap fun r ↦ (target ix .strict t.source path r).value) =
      t.targets := filterMap_targetRefs t.source h
  have hinternal := internal_toConfig t
  rw [value_transition, assemble]
  simp only [Transition.toConfig] at hinternal ⊢
  rw [htargets, hinternal]

/-- What is built from a group of the state `id`. -/
def built (ix : Index) (id : String) (path : List String) (g : Group) : List Transition :=
  g.transitions.map fun c ↦ (transition ix .strict id path g.event g.delay c).value

/-- The groups of transitions that are declared under their events. -/
def onGroups (ts : List Transition) : List Group :=
  (Keyed.groups (·.event) ts).map fun g ↦ ⟨g.1, none, g.2.map underEvent⟩

/-- The groups of transitions of the state `id` that are declared under their delays. -/
def afterGroups (id : String) (ts : List Transition) : List Group :=
  (Keyed.groups delayKey ts).map fun g ↦
    ⟨Event.after (Delay.ofKey g.1) id, some (Delay.ofKey g.1), g.2.map underDelay⟩

theorem groups_ownConfig (f : Facets) (k : StateKind State) :
    groups f.id (State.ownConfig f k) =
      onGroups (placed f.id .on f.transitions)
        ++ [⟨Event.doneState f.id, none, []⟩]
        ++ invocationGroups f.id 0 (f.invocations.map Invocation.toConfig)
        ++ afterGroups f.id (placed f.id .after f.transitions)
        ++ [⟨Event.always, none, (placed f.id .always f.transitions).map underEvent⟩] := by
  rw [State.ownConfig_eq, groups, List.map_map, List.map_map]
  rfl

/-- What is built from groups with one key each is what is built from the grouped transitions. -/
theorem flatMap_built_groups (id : String) (key : Transition → String) (event : String → String)
    (delay : String → Option Delay) (config : Transition → TransitionConfig)
    (ts : List Transition) :
    ((Keyed.groups key ts).map fun g ↦
        (⟨event g.1, delay g.1, g.2.map config⟩ : Group)).flatMap (built ix id path) =
      (Keyed.grouped key ts).map fun t ↦
        (transition ix .strict id path (event (key t)) (delay (key t)) (config t)).value := by
  rw [List.flatMap_map, ← Keyed.flatMap_groups key fun k t ↦
    (transition ix .strict id path (event k) (delay k) (config t)).value]
  exact List.flatMap_congr fun g _ ↦ List.map_map

section

variable {id : String} {ts : List Transition}
  (h : ∀ t ∈ ts, t.source = id ∧ ∀ x ∈ t.targets, x ∈ ix.ids)

include h

theorem flatMap_built_onGroups :
    (onGroups ts).flatMap (built ix id path) = Keyed.grouped (·.event) ts := by
  have hbuilt : ∀ t ∈ Keyed.grouped (·.event) ts,
      (transition ix .strict id path t.event none t.underEvent).value = t := by
    intro t ht
    obtain ⟨rfl, htarget⟩ := h t (Keyed.mem_grouped.1 ht)
    exact value_transition_toConfig t.event none t.delay htarget
  rw [onGroups, flatMap_built_groups id (·.event) (fun event ↦ event) fun _ ↦ none]
  exact (List.map_congr_left hbuilt).trans (List.map_id' _)

theorem flatMap_built_afterGroups :
    (afterGroups id ts).flatMap (built ix id path) =
      (Keyed.grouped delayKey ts).map (retimed id) := by
  have hbuilt : ∀ t ∈ Keyed.grouped delayKey ts,
      (transition ix .strict id path (Event.after (Delay.ofKey t.delayKey) id)
        (some (Delay.ofKey t.delayKey)) t.underDelay).value = t.retimed id := by
    intro t ht
    obtain ⟨rfl, htarget⟩ := h t (Keyed.mem_grouped.1 ht)
    exact value_transition_toConfig _ _ none htarget
  rw [afterGroups, flatMap_built_groups id delayKey (fun k ↦ Event.after (Delay.ofKey k) id)
    fun k ↦ some (Delay.ofKey k)]
  exact List.map_congr_left hbuilt

theorem built_always (hplace : ∀ t ∈ ts, t.place id = .always) :
    built ix id path ⟨Event.always, none, ts.map underEvent⟩ = ts := by
  have hbuilt : ∀ t ∈ ts,
      (transition ix .strict id path Event.always none t.underEvent).value = t := by
    intro t ht
    obtain ⟨rfl, htarget⟩ := h t ht
    rw [← (place_eq_always_iff.1 (hplace t ht)).2]
    exact value_transition_toConfig t.event none t.delay htarget
  rw [built, List.map_map]
  exact (List.map_congr_left hbuilt).trans (List.map_id' _)

end

/-- The invocations of an exported state declare no transitions. -/
theorem flatMap_built_invocationGroups (id : String) (n : Nat) (is : List Invocation) :
    (invocationGroups id n (is.map Invocation.toConfig)).flatMap (built ix id path) = [] := by
  have hnone :
      (invocationGroups id n (is.map Invocation.toConfig)).flatMap (·.transitions) = [] := by
    rw [flatMap_invocationGroups, List.flatMap_map]
    exact List.flatMap_eq_nil_iff.2 fun i _ ↦ rfl
  refine List.flatMap_eq_nil_iff.2 fun g hg ↦ ?_
  rw [built, List.flatMap_eq_nil_iff.1 hnone g hg, List.map_nil]

/-- **The transitions of a state** are read back place by place. -/
theorem value_transitions_ownConfig {f : Facets} (k : StateKind State)
    (h : ∀ t ∈ f.transitions, t.source = f.id ∧ ∀ x ∈ t.targets, x ∈ ix.ids) :
    (transitions ix .strict f.id path (State.ownConfig f k)).value =
      reread f.id f.transitions := by
  have hplaced : ∀ p, ∀ t ∈ placed f.id p f.transitions,
      t.source = f.id ∧ ∀ x ∈ t.targets, x ∈ ix.ids := fun p t ht ↦ h t (mem_placed.1 ht).1
  have hbuilt : (transitions ix .strict f.id path (State.ownConfig f k)).value =
      (groups f.id (State.ownConfig f k)).flatMap (built ix f.id path) :=
    value_transitions ix .strict f.id path _
  rw [hbuilt, groups_ownConfig]
  simp only [List.flatMap_append, List.flatMap_singleton]
  rw [flatMap_built_onGroups (hplaced .on), flatMap_built_afterGroups (hplaced .after),
    built_always (hplaced .always) fun t ht ↦ (mem_placed.1 ht).2, flatMap_built_invocationGroups,
    built, List.map_nil, List.append_nil, List.append_nil, reread]

/-- An exported state declares its transitions and no others. -/
theorem declared_ownConfig (f : Facets) (k : StateKind State) :
    (State.ownConfig f k).declared =
      (Keyed.grouped (·.event) (placed f.id .on f.transitions)).map underEvent
        ++ (Keyed.grouped delayKey (placed f.id .after f.transitions)).map underDelay
        ++ (placed f.id .always f.transitions).map underEvent := by
  have hinvocations : (f.invocations.map Invocation.toConfig).flatMap
      (fun i ↦ i.onDone ++ i.onError) = [] := by
    rw [List.flatMap_map]
    exact List.flatMap_eq_nil_iff.2 fun _ _ ↦ rfl
  rw [State.ownConfig_eq, ConfigFacets.declared]
  simp only [List.flatMap_map, State.bareConfig, hinvocations, List.append_nil]
  rw [Keyed.flatMap_groups _ fun _ ↦ underEvent, Keyed.flatMap_groups _ fun _ ↦ underDelay]

/-- The references in the config of a state are those to the targets of its transitions. -/
theorem mem_targets_declared_ownConfig {f : Facets} {k : StateKind State} {r : String} :
    r ∈ (State.ownConfig f k).declared.flatMap (·.targets) ↔
      ∃ t ∈ f.transitions, ∃ x ∈ t.targets, Reference.absolute x = r := by
  have hplaced : ∀ t, t ∈ f.transitions ↔
      (t ∈ placed f.id .on f.transitions ∨ t ∈ placed f.id .after f.transitions) ∨
        t ∈ placed f.id .always f.transitions := fun t ↦ by
    rw [← List.mem_append, ← List.mem_append, (placed_append_perm f.id f.transitions).mem_iff]
  have hrefs : ∀ t : Transition, r ∈ t.targetRefs ↔ ∃ x ∈ t.targets, Reference.absolute x = r :=
    fun t ↦ List.mem_map
  rw [declared_ownConfig]
  simp only [List.flatMap_append, List.flatMap_map, List.mem_append, List.mem_flatMap,
    Keyed.mem_grouped, underEvent, underDelay, Transition.toConfig, hrefs, hplaced, or_and_right,
    exists_or]

/-- Nothing is wrong with the targets of a state exactly if they resolve. -/
theorem targetProblems_ownConfig_eq_nil_iff {f : Facets} (k : StateKind State) (id : String) :
    (State.ownConfig f k).targetProblems ix id path = [] ↔
      ∀ t ∈ f.transitions, ∀ x ∈ t.targets,
        (ix.resolve? [] (Reference.absolute x)).isSome := by
  rw [ConfigFacets.targetProblems, List.map_eq_nil_iff, List.filter_eq_nil_iff]
  simp only [mem_targets_declared_ownConfig]
  constructor
  · intro h t ht x hx
    have hresolve := h _ ⟨t, ht, x, hx, rfl⟩
    rwa [Index.resolve?_absolute_source, Bool.not_eq_true, Option.isNone_eq_false_iff] at hresolve
  · rintro h r ⟨t, ht, x, hx, rfl⟩
    rw [Index.resolve?_absolute_source, Bool.not_eq_true, Option.isNone_eq_false_iff]
    exact h t ht x hx

/-! ### States -/

theorem toInvocations_toConfig (id : String) (n : Nat) (is : List Invocation) :
    InvocationConfig.toInvocations id n (is.map Invocation.toConfig) = is := by
  induction is generalizing n with
  | nil => rfl
  | cons i is ih => rw [List.map_cons, InvocationConfig.toInvocations, ih]; rfl

theorem facets_ownConfig (f : Facets) (k : StateKind State) (ts : List Transition) :
    facets f.id f.key ts (State.ownConfig f k) = { f with transitions := ts } := by
  have hinvocations : InvocationConfig.toInvocations f.id 0 (State.ownConfig f k).invocations =
      f.invocations := by
    rw [State.ownConfig_eq]
    exact toInvocations_toConfig f.id 0 f.invocations
  rw [facets, hinvocations, State.ownConfig_eq]
  rfl

/-- The kind of a state is read back with the children that are built for it. -/
theorem value_kind_ownConfig (f : Facets) (k : StateKind State)
    {states : List (String × StateConfig)} (below : Checked (List State))
    (hne : k.type = .compound → states ≠ []) :
    (kind f.id (State.ownConfig f k) states below).value = k.withChildren below.value := by
  rw [State.ownConfig_eq, kind]
  cases k with
  | compound start _ =>
    obtain ⟨e, es, rfl⟩ := List.exists_cons_of_ne_nil (hne rfl)
    -- the key that is given is taken, whether or not there is a child under it
    have hstart : ∀ f' : ConfigFacets, f'.initial = some start →
        (initial f.id f' (e :: es)).value = start := by
      intro f' hf'
      rw [initial, hf']
      cases h : Keyed.has start (e :: es) <;> simp only [h] <;> rfl
    exact congrArg (StateKind.compound · below.value) (hstart _ rfl)
  | parallel _ => cases states <;> rfl
  | atomic => cases states <;> rfl
  | final _ => cases states <;> rfl
  | history _ => cases states <;> rfl

/-- **Nothing is wrong with the config of a tree** exactly if every state can be entered and every
target resolves. -/
theorem problems_toConfig_eq_nil_iff {s : State} (h : s.KeysDistinct) :
    s.toConfig.problems ix s.id path = [] ↔
      ∀ u ∈ s.preorder, u.Enterable ∧ ∀ t ∈ u.transitions, ∀ x ∈ t.targets,
        (ix.resolve? [] (Reference.absolute x)).isSome := by
  induction s using State.induction generalizing path with
  | step s ih =>
    have hown : s.toConfig.targetProblems ix s.id path = [] ↔ ∀ t ∈ s.transitions,
        ∀ x ∈ t.targets, (ix.resolve? [] (Reference.absolute x)).isSome := by
      rw [State.toConfig_eq]
      exact targetProblems_ownConfig_eq_nil_iff s.kind s.id
    have hbelow : (∀ e ∈ s.toConfig.states,
          e.2.problems ix (Index.childId s.id e.1 e.2) (path ++ [e.1]) = []) ↔
        ∀ c ∈ s.children, ∀ u ∈ c.preorder, u.Enterable ∧ ∀ t ∈ u.transitions, ∀ x ∈ t.targets,
          (ix.resolve? [] (Reference.absolute x)).isSome := by
      rw [State.states_toConfig h.keys_nodup, List.forall_mem_map]
      refine forall₂_congr fun c hc ↦ ?_
      rw [State.childId_toConfig]
      exact ih c hc (h.of_mem_children hc)
    rw [problems_eq_nil_iff, State.kindProblems_toConfig_eq_nil_iff s.id h.keys_nodup, hown, hbelow]
    constructor
    · rintro ⟨hself, hchildren, htargets⟩ u hu
      rcases State.mem_preorder_iff.1 hu with rfl | ⟨c, hc, hu⟩
      · exact ⟨hself, htargets⟩
      · exact hchildren c hc u hu
    · intro hall
      have hself := hall s (State.mem_preorder_self s)
      exact ⟨hself.1, fun c hc u hu ↦ hall u (State.mem_preorder_of_mem_children hc hu), hself.2⟩

/-- **A tree of states** is read back from its config with its transitions read place by place. -/
theorem value_state_toConfig {s : State} (h : s.SoundIn ix) :
    (state ix .strict s.id s.key path s.toConfig).value =
      s.mapFacets (Facets.mapTransitions reread) := by
  induction s using State.induction generalizing path with
  | step s ih =>
    have hconfig : s.toConfig.toConfigFacets = State.ownConfig s.toFacets s.kind := by
      rw [State.toConfig_eq]
    have htransitions :
        (transitions ix .strict s.id path (State.ownConfig s.toFacets s.kind)).value =
          reread s.id s.transitions :=
      value_transitions_ownConfig s.kind fun t ht ↦
        ⟨h.regular_self.source_eq t ht, h.target_mem_self t ht⟩
    have hbelow : (below ix .strict s.id path s.toConfig).value =
        s.children.map (State.mapFacets (Facets.mapTransitions reread)) := by
      rw [value_below, State.states_toConfig h.regular_self.keys_nodup, List.map_map]
      refine List.map_congr_left fun c hc ↦ ?_
      rw [Function.comp_apply, State.childId_toConfig]
      exact ih c hc (h.of_mem_children hc)
    have hkind := value_kind_ownConfig s.toFacets s.kind (below ix .strict s.id path s.toConfig)
      (State.states_toConfig_ne_nil h.regular_self)
    rw [value_state, hconfig, htransitions, facets_ownConfig, hkind, hbelow]
    obtain ⟨f, k⟩ := s
    rw [State.mapFacets, State.mapFacetsKind_eq_withChildren]
    rfl

end Import

namespace Machine

variable {m : Machine}

theorem root_id_toConfig (m : Machine) : m.toConfig.root.id.getD defaultId = m.root.id := by
  rw [toConfig, State.toConfig_eq, State.ownConfig_eq]
  rfl

section

variable (hkeys : m.root.KeysDistinct) (hkey : m.root.key = m.root.id)

include hkeys hkey

/-- The config of a machine has the outline of the machine. -/
theorem outline_toConfig : m.toConfig.outline = m.root.outline := by
  have hroot : m.root.toConfig.outline m.root.id m.root.key = m.root.outline :=
    State.outline_toConfig hkeys
  rw [hkey, ← root_id_toConfig m] at hroot
  exact hroot

/-- The index of the config of a machine lists the ids of the machine. -/
theorem ids_below_toConfig :
    (Index.below m.root.id m.toConfig.root.states).ids = m.root.ids := by
  rw [Index.ids_below m.root.id m.root.id, ← State.ids_outline, ← outline_toConfig hkeys hkey,
    ← root_id_toConfig m]
  rfl

end

/-- **Every export is a config that imports.** The machine that comes back is the one that was
exported, with the transitions of each state read place by place. -/
theorem ofConfig_toConfig_eq_reread (h : m.WellFormed) (hkey : m.root.key = m.root.id) :
    ofConfig m.toConfig = .ok (m.mapTransitions Transition.reread) := by
  have hkeys : m.root.KeysDistinct := h.keysDistinct
  have htarget : ∀ s ∈ m.root.preorder, ∀ t ∈ s.transitions, ∀ x ∈ t.targets,
      x ∈ (Index.below m.root.id m.toConfig.root.states).ids :=
    ids_below_toConfig hkeys hkey ▸ h.target_mem
  have hproblems : m.root.toConfig.problems (Index.below m.root.id m.toConfig.root.states)
      m.root.id [] = [] := by
    refine (Import.problems_toConfig_eq_nil_iff hkeys).2 fun u hu ↦
      ⟨(h.regular u hu).enterable, fun t ht x hx ↦ ?_⟩
    rw [Index.resolve?_absolute [] (htarget u hu t ht x hx)]
    rfl
  have hstate : (Import.state _ .strict m.root.id m.root.key [] m.root.toConfig).value =
      m.root.mapFacets (Facets.mapTransitions Transition.reread) :=
    Import.value_state_toConfig ⟨h.regular, htarget⟩
  rw [hkey] at hstate
  refine ofConfig_eq_ok_iff.2 ?_
  rw [root_id_toConfig, outline_toConfig hkeys hkey, State.ids_outline]
  refine ⟨h.ids_nodup, hproblems, ?_⟩
  rw [mapTransitions, ← hstate]
  rfl

end Machine

end Statechart
