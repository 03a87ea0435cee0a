import Statechart.Import.Build

/-!
# What each step of an import gives

An import pairs every result with the problems found on the way to it. For each of its steps this
module says what the result is and what the problems are, as two equations. The two do not mix: a
result never depends on whether problems were found, so `value_state` describes the state that is
built also for configs that are rejected.

`Import.kind` and `Import.children_eq_each` put the recursion over a config into a form without
mutual functions, in which `StateConfig.induction` can be used.
-/

namespace Statechart

namespace Checked

variable {α β : Type}

@[simp] theorem value_pure (x : α) : (pure x : Checked α).value = x := rfl

@[simp] theorem problems_pure (x : α) : (pure x : Checked α).problems = [] := rfl

@[simp] theorem value_bind (c : Checked α) (f : α → Checked β) :
    (c >>= f).value = (f c.value).value := rfl

@[simp] theorem problems_bind (c : Checked α) (f : α → Checked β) :
    (c >>= f).problems = c.problems ++ (f c.value).problems := rfl

@[simp] theorem problems_report (p : Problem) : (report p).problems = [p] := rfl

theorem ext {c d : Checked α} (value : c.value = d.value) (problems : c.problems = d.problems) :
    c = d := by
  cases c
  cases d
  cases value
  cases problems
  rfl

/-- Steps can be put together in either order. -/
theorem bind_bind {γ : Type} (c : Checked α) (f : α → Checked β) (g : β → Checked γ) :
    (c >>= f) >>= g = c >>= fun x ↦ f x >>= g :=
  ext rfl (List.append_assoc _ _ _)

theorem value_each (build : α → Checked β) (xs : List α) :
    (each build xs).value = xs.map fun x ↦ (build x).value := by
  induction xs with
  | nil => rfl
  | cons x xs ih => rw [List.map_cons, ← ih]; rfl

/-- Building goes on past a problem, so the problems of all items are found, in their order. -/
theorem problems_each (build : α → Checked β) (xs : List α) :
    (each build xs).problems = xs.flatMap fun x ↦ (build x).problems := by
  induction xs with
  | nil => rfl
  | cons x xs ih => simp only [each, problems_bind, problems_pure, ih, List.append_nil,
      List.flatMap_cons]

end Checked

/-- An invocation without an id of its own is known by its number. -/
theorem InvocationConfig.toInvocations_eq_map_zipIdx (id : String) (n : Nat)
    (is : List InvocationConfig) :
    toInvocations id n is =
      (is.zipIdx n).map fun (i, k) ↦ ⟨i.idAt id k, i.source, i.autoForward, i.metadata⟩ := by
  induction is generalizing n with
  | nil => rfl
  | cons i is ih => rw [toInvocations, List.zipIdx_cons, List.map_cons, ih]

namespace Import

open Checked

variable (ix : Index) (r : Resolution) (id key : String) (path : List String)

/-! ### Transitions -/

theorem invocationGroups_eq_flatMap_zipIdx (n : Nat) (is : List InvocationConfig) :
    invocationGroups id n is =
      (is.zipIdx n).flatMap fun (i, k) ↦
        [⟨Event.doneInvoke (i.idAt id k), none, i.onDone⟩,
          ⟨Event.errorPlatform (i.idAt id k), none, i.onError⟩] := by
  induction is generalizing n with
  | nil => rfl
  | cons i is ih => rw [invocationGroups, List.zipIdx_cons, List.flatMap_cons, ih]; rfl

@[simp] theorem value_target_strict (reference : String) :
    (target ix .strict id path reference).value = ix.resolve? path reference := by
  rw [target]
  cases ix.resolve? path reference <;> rfl

theorem problems_target_strict (reference : String) :
    (target ix .strict id path reference).problems =
      if (ix.resolve? path reference).isNone then [.unknownTarget id reference] else [] := by
  rw [target]
  cases ix.resolve? path reference <;> rfl

/-- A transition as it is built once its targets are known. -/
def assemble (event : String) (delay : Option Delay) (c : TransitionConfig)
    (targets : List String) : Transition where
  source := id
  event := event
  targets := targets
  actions := c.actions
  guard := c.guard
  delay := delay <|> c.delay
  internal := c.internal.getD (internalByDefault c.targets)
  inState := c.inState
  description := c.description
  metadata := c.metadata

theorem value_transition (event : String) (delay : Option Delay) (c : TransitionConfig) :
    (transition ix r id path event delay c).value =
      assemble id event delay c
        (c.targets.filterMap fun t ↦ (target ix r id path t).value) := by
  rw [transition, value_bind, value_each, value_pure, List.filterMap_map]
  rfl

theorem problems_transition (event : String) (delay : Option Delay) (c : TransitionConfig) :
    (transition ix r id path event delay c).problems =
      c.targets.flatMap fun t ↦ (target ix r id path t).problems := by
  rw [transition, problems_bind, problems_each, problems_pure, List.append_nil]

theorem value_transitions (f : ConfigFacets) :
    (transitions ix r id path f).value =
      (groups id f).flatMap fun g ↦
        g.transitions.map fun c ↦ (transition ix r id path g.event g.delay c).value := by
  simp only [transitions, value_bind, value_pure, value_each, List.flatMap_def]

theorem problems_transitions (f : ConfigFacets) :
    (transitions ix r id path f).problems =
      (groups id f).flatMap fun g ↦ g.transitions.flatMap fun c ↦
        c.targets.flatMap fun t ↦ (target ix r id path t).problems := by
  simp only [transitions, problems_bind, problems_pure, problems_each, problems_transition,
    List.append_nil]

/-! ### States -/

/-- The kind of a state, from the children that would be built for it. A leaf has no use for
them. -/
def kind (f : ConfigFacets) (states : List (String × StateConfig))
    (below : Checked (List State)) : Checked (StateKind State) :=
  match type f states with
  | .compound =>
    if states.isEmpty then pure .atomic
    else do
      let key ← initial id f states
      let below ← below
      pure (.compound key below)
  | .parallel => do
    if states.isEmpty then Checked.report (.emptyParallel id)
    let below ← below
    pure (.parallel below)
  | .final => leaf id states .final (.final f.doneData)
  | .history => leaf id states .history (.history (f.history.getD .shallow))
  | .atomic => leaf id states .atomic .atomic

theorem children_eq_each (parent : String) (states : List (String × StateConfig)) :
    children ix r parent path states =
      each (fun e ↦ state ix r (Index.childId parent e.1 e.2) e.1 (path ++ [e.1]) e.2) states := by
  induction states with
  | nil => rfl
  | cons e states ih => rw [children, each, ih]

/-- Everything that a state carries besides its kind. -/
def facets (transitions : List Transition) (f : ConfigFacets) : Facets where
  id := id
  key := key
  entry := f.entry
  exit := f.exit
  invocations := InvocationConfig.toInvocations id 0 f.invocations
  transitions := transitions
  tags := f.tags
  metadata := f.metadata
  description := f.description

/-- The states that are built for the children of a config. -/
def below (c : StateConfig) : Checked (List State) :=
  each (fun e ↦ state ix r (Index.childId id e.1 e.2) e.1 (path ++ [e.1]) e.2) c.states

/-- A state is built from its kind, then its transitions. -/
theorem state_eq (c : StateConfig) :
    state ix r id key path c = (do
      let k ← kind id c.toConfigFacets c.states (below ix r id path c)
      let ts ← transitions ix r id path c.toConfigFacets
      return ⟨facets id key ts c.toConfigFacets, k⟩) := by
  obtain ⟨f, states⟩ := c
  rw [state, below, ← children_eq_each, kind]
  -- the steps are the same, but put together in another order
  cases type f states with
  | compound =>
    cases states.isEmpty with
    | true => rfl
    | false => simp only [Bool.false_eq_true, if_false, bind_bind]; rfl
  | parallel =>
    cases states.isEmpty with
    | true => simp only [if_true, bind_bind]; rfl
    | false => simp only [Bool.false_eq_true, if_false, bind_bind]; rfl
  | final => rfl
  | history => rfl
  | atomic => rfl

theorem value_below (c : StateConfig) :
    (below ix r id path c).value =
      c.states.map fun e ↦
        (state ix r (Index.childId id e.1 e.2) e.1 (path ++ [e.1]) e.2).value :=
  value_each _ _

theorem problems_below (c : StateConfig) :
    (below ix r id path c).problems =
      c.states.flatMap fun e ↦
        (state ix r (Index.childId id e.1 e.2) e.1 (path ++ [e.1]) e.2).problems :=
  problems_each _ _

theorem value_state (c : StateConfig) :
    (state ix r id key path c).value =
      ⟨facets id key (transitions ix r id path c.toConfigFacets).value c.toConfigFacets,
        (kind id c.toConfigFacets c.states (below ix r id path c)).value⟩ := by
  rw [state_eq]
  rfl

theorem problems_state (c : StateConfig) :
    (state ix r id key path c).problems =
      (kind id c.toConfigFacets c.states (below ix r id path c)).problems
        ++ (transitions ix r id path c.toConfigFacets).problems := by
  rw [state_eq, problems_bind, problems_bind, problems_pure, List.append_nil]

end Import

end Statechart
