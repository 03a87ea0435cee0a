import Statechart.Proofs.Export.Reimport
import Statechart.Proofs.Revision.Frame
import Statechart.Proofs.Revision.Regular

/-!
# Pending states against states that are revised at once

A pending state keeps the state as it was and notes only what is decided on. Transitions that no
edit touches never take their structured form, the others take it and are turned back at the end,
and only then do the transitions of invocations come in.

An `EagerState` knows nothing of this. It holds every facet in the form in which it is edited, and
an edit changes its facet on the spot. What a pending state stands at is such a state
(`PendingState.eager`), an edit of one is an edit of the other (`PendingState.eager_apply`), and
both come to the same end (`PendingState.settle_eq_finish`), because a transition that is turned
into its structured form and back is the same transition.
-/

namespace Statechart

namespace StateKind

variable {σ : Type}

/-- A compound state starts at another key. -/
def withInitial (key : String) : StateKind σ → StateKind σ
  | .compound _ states => .compound key states
  | kind => kind

/-- A history state recalls as much as is said. -/
def withHistory (history : HistoryKind) : StateKind σ → StateKind σ
  | .history _ => .history history
  | kind => kind

/-- A final state has another mapper. -/
def withDoneData (doneData : DoneData) : StateKind σ → StateKind σ
  | .final _ => .final (some doneData)
  | kind => kind

end StateKind

/-- The facets of a state that is being revised. -/
structure EagerState where
  transitions : List TransitionConfig
  invocations : List InvocationConfig
  entry : List Action
  exit : List Action
  tags : List String
  metadata : Option Json
  description : Option String
  /-- The kind without children, and with it the key to start at, how much a history recalls, or the
  mapper of a final state. -/
  kind : StateKind State
  /-- The key to start at that was said last, for a state that may become compound. -/
  initial : Option String := none
  declared : Option (List (String × StateConfig)) := none

namespace EagerState

/-- A state, with its transitions and invocations in structured form. -/
def of (s : State) : EagerState where
  transitions := s.transitions.map Transition.toConfig
  invocations := s.invocations.map Invocation.toConfig
  entry := s.entry
  exit := s.exit
  tags := s.tags
  metadata := s.metadata
  description := s.description
  kind := s.kind.bare

variable (v : EagerState)

/-- Make a change at once. -/
def step : Edit → EagerState
  | .clearTransitions => { v with transitions := [] }
  | .appendTransition t => { v with transitions := v.transitions ++ [t] }
  | .transformTransitions f => { v with transitions := v.transitions.map f }
  | .setTransitions ts => { v with transitions := ts }
  | .clearInvocations => { v with invocations := [] }
  | .appendInvocation i => { v with invocations := v.invocations ++ [i] }
  | .transformInvocations f => { v with invocations := v.invocations.map f }
  | .setInvocations is => { v with invocations := is }
  | .clearEntry => { v with entry := [] }
  | .appendEntry a => { v with entry := v.entry ++ [a] }
  | .transformEntry f => { v with entry := v.entry.map f }
  | .setEntry as => { v with entry := as }
  | .clearExit => { v with exit := [] }
  | .appendExit a => { v with exit := v.exit ++ [a] }
  | .transformExit f => { v with exit := v.exit.map f }
  | .setExit as => { v with exit := as }
  | .setInitial key => { v with kind := v.kind.withInitial key, initial := some key }
  | .setTags tags => { v with tags := tags }
  | .setMetadata value => { v with metadata := if value.isNull then none else some value }
  | .setDescription text => { v with description := some text }
  | .clearDescription => { v with description := none }
  | .setHistory history => { v with kind := v.kind.withHistory history }
  | .setDoneData doneData => { v with kind := v.kind.withDoneData doneData }
  | .setChildren states => { v with declared := some (Keyed.ofEntries states) }

/-- Make the changes of a chain, the first one first. -/
def run (edits : List Edit) : EagerState := edits.foldl step v

/-- The invocations of the state `id`, each with its own id or else the one of its position. -/
def namedInvocations (id : String) : List (InvocationConfig × String) :=
  v.invocations.zipIdx.map fun (i, n) ↦
    (i, i.id.getD (id ++ ":invocation[" ++ Decimal.text n ++ "]"))

/-- The transitions of the state `id`: its own, then those on the completion and on the failure of
each invocation. -/
def finishedTransitions (id : String) : List Transition :=
  v.transitions.map (Transition.ofConfig id) ++ (v.namedInvocations id).flatMap fun (i, name) ↦
    (i.onDone.map fun c ↦ { Transition.ofConfig id c with event := Event.doneInvoke name })
      ++ i.onError.map fun c ↦ { Transition.ofConfig id c with event := Event.errorPlatform name }

/-- The finished state, under its names. -/
def finish (id key : String) : PendingState.Settled where
  state := ⟨{
    id := id
    key := key
    entry := v.entry
    exit := v.exit
    invocations := (v.namedInvocations id).map fun (i, name) ↦
      ⟨name, i.source, i.autoForward, i.metadata⟩
    transitions := v.finishedTransitions id
    tags := v.tags
    metadata := v.metadata
    description := v.description }, v.kind⟩
  initial := v.initial
  declared := v.declared

end EagerState

/-- A transition in structured form is turned back into itself. -/
theorem Transition.ofConfig_source_toConfig (t : Transition) :
    ofConfig t.source t.toConfig = t := by
  have htargets : t.targetRefs.map TransitionConfig.targetId = t.targets := by
    have hone : ∀ id, TransitionConfig.targetId (Reference.absolute id) = id := fun id ↦ by
      rw [TransitionConfig.targetId, Index.absoluteId?_absolute, Option.getD_some]
    rw [targetRefs, List.map_map]
    exact (List.map_congr_left fun id _ ↦ hone id).trans (List.map_id' _)
  have hinternal : t.toConfig.internal.getD t.targetRefs.isEmpty = t.internal := by
    rw [targetRefs, List.isEmpty_map, ← Import.internalByDefault_targetRefs]
    exact Import.internal_toConfig t
  simp only [ofConfig, Transition.toConfig] at hinternal ⊢
  rw [htargets, hinternal, Option.getD_some]

namespace PendingState

variable (p : PendingState)

/-! ### What a pending state stands at -/

/-- What the facets of a pending state stand at. -/
def eager : EagerState where
  transitions := p.currentTransitions
  invocations := p.currentInvocations
  entry := p.currentEntry
  exit := p.currentExit
  tags := p.tags.getD p.base.tags
  metadata := p.metadata.getD p.base.metadata
  description := p.description.getD p.base.description
  kind := p.settledKind
  initial := p.initial
  declared := p.declared

theorem eager_of (s : State) : (of s).eager = .of s := by
  obtain ⟨f, k⟩ := s
  cases k <;> rfl

/-- **One edit.** It does to what the facets stand at what it says. -/
theorem eager_apply (e : Edit) : (e.apply p).eager = p.eager.step e := by
  cases e with
  | setInitial | setHistory | setDoneData =>
    rw [eager, eager, EagerState.step, settledKind, settledKind]
    simp only [Edit.apply]
    cases p.base.kind <;> rfl
  | _ => rfl

/-- **A chain of edits.** -/
theorem eager_edit (edits : List Edit) : (p.edit edits).eager = p.eager.run edits := by
  induction edits generalizing p with
  | nil => rfl
  | cons e edits ih =>
    show ((e.apply p).edit edits).eager = (p.eager.step e).run edits
    rw [ih, eager_apply]

/-! ### The finished state -/

/-- Invocations that were not touched bring no transitions. -/
theorem invocationTransitions_toConfig (id : String) (n : Nat) (is : List Invocation) :
    invocationTransitions id n (is.map Invocation.toConfig) = [] := by
  induction is generalizing n with
  | nil => rfl
  | cons i is ih => rw [List.map_cons, invocationTransitions, ih]; rfl

theorem invocations_settle :
    p.settle.state.invocations =
      InvocationConfig.toInvocations p.base.id 0 p.currentInvocations := by
  rw [settle, currentInvocations]
  cases p.invocations with
  | none => exact (Import.toInvocations_toConfig _ _ _).symm
  | some is => rfl

/-- **The two routes of a transition** come to the same end: kept as it was, and turned into its
structured form and back. -/
theorem settledTransitions_eq_current (h : ∀ t ∈ p.base.transitions, t.source = p.base.id) :
    p.settledTransitions =
      p.currentTransitions.map (Transition.ofConfig p.base.id) ++
        invocationTransitions p.base.id 0 p.currentInvocations := by
  have hkept : p.base.transitions =
      (p.base.transitions.map Transition.toConfig).map (Transition.ofConfig p.base.id) := by
    rw [List.map_map]
    refine ((List.map_congr_left fun t ht ↦ ?_).trans (List.map_id' _)).symm
    rw [Function.comp_apply, ← h t ht, Transition.ofConfig_source_toConfig]
  rw [settledTransitions_eq, currentTransitions, currentInvocations]
  congr 1
  · cases p.transitions with
    | none => exact hkept
    | some ts => rfl
  · cases p.invocations with
    | none => exact (invocationTransitions_toConfig _ _ _).symm
    | some is => rfl

/-- **What is finished** is what the facets stand at. -/
theorem settle_eq_finish (h : ∀ t ∈ p.base.transitions, t.source = p.base.id) :
    p.settle = p.eager.finish p.base.id p.base.key := by
  have hinvocations : (p.eager.namedInvocations p.base.id).map
      (fun (i, name) ↦ (⟨name, i.source, i.autoForward, i.metadata⟩ : Invocation)) =
        p.settle.state.invocations := by
    rw [invocations_settle, InvocationConfig.toInvocations_eq_map_zipIdx,
      EagerState.namedInvocations, List.map_map]
    rfl
  have htransitions : p.eager.finishedTransitions p.base.id = p.settledTransitions := by
    rw [settledTransitions_eq_current p h, invocationTransitions_eq_flatMap_zipIdx,
      EagerState.finishedTransitions, EagerState.namedInvocations, List.flatMap_map]
    rfl
  rw [EagerState.finish, hinvocations, htransitions]
  rfl

theorem childKeys_edit (edits : List Edit) : (p.edit edits).childKeys = p.childKeys :=
  edit_induction (motive := fun q ↦ q.childKeys = p.childKeys) rfl fun q e _ hq ↦
    (e.childKeys_apply q).trans hq

/-- A pending state of `s` shows `s` to its reader, and stands at what `v` is. -/
structure Refines (s : State) (v : EagerState) : Prop where
  currentTransitions_eq : p.currentTransitions = v.transitions
  currentInvocations_eq : p.currentInvocations = v.invocations
  currentEntry_eq : p.currentEntry = v.entry
  currentExit_eq : p.currentExit = v.exit
  /-- The names, the actions, the invocations, the transitions, the tags, the metadata and the
  description to be read are those of the state. -/
  toFacets_base : p.base.toFacets = s.toFacets
  type_base : p.base.type = s.type
  initial?_base : p.base.initial? = s.initial?
  history?_base : p.base.history? = s.history?
  doneData?_base : p.base.doneData? = s.doneData?
  childKeys_eq : p.childKeys = s.children.map (·.key)
  settle_eq : p.settle = v.finish s.id s.key

/-- **A pending state refines a state that is revised at once.** After every chain of edits it
stands at the facets that the chain makes of those of the state, it still shows the state as it was,
and what it comes to has these facets. -/
theorem refines_edit {s : State} (h : ∀ t ∈ s.transitions, t.source = s.id) (edits : List Edit) :
    ((of s).edit edits).Refines s ((EagerState.of s).run edits) := by
  have hbase : ((of s).edit edits).base = s.bare := by rw [base_edit, base_of]
  have heager : ((of s).edit edits).eager = (EagerState.of s).run edits := by
    rw [eager_edit, eager_of]
  have hsettle := settle_eq_finish ((of s).edit edits) (by rw [hbase]; exact h)
  rw [heager, hbase] at hsettle
  refine ⟨congrArg EagerState.transitions heager, congrArg EagerState.invocations heager,
    congrArg EagerState.entry heager, congrArg EagerState.exit heager, ?_, ?_, ?_, ?_, ?_,
    childKeys_edit _ edits, hsettle⟩
  · rw [hbase]
    rfl
  · rw [hbase, State.type_bare]
  · rw [hbase, State.initial?_bare]
  · rw [hbase]
    exact Facet.same_bare .history s
  · rw [hbase]
    exact Facet.same_bare .doneData s

end PendingState

/-- A lobby in which music plays. One id starts like an absolute reference, and one transition with
a target is internal. -/
def State.lobby : State :=
  ⟨{ Facets.named "hotel.lobby" "lobby" with
      entry := [.named "greet"]
      invocations := [.of "music" "radio"]
      transitions := [
        { Transition.of "hotel.lobby" "ring" with targets := ["#1", "hotel.bar"] },
        { Transition.of "hotel.lobby" "" with targets := ["hotel.bar"], internal := true }] },
    .compound "desk" [.of "hotel.lobby.desk" "desk" .atomic]⟩

/-- Edits of almost every facet, and some that do not count for a lobby. -/
def Edit.overhaul : List Edit :=
  [.appendInvocation { source := "clock", onDone := [.to ["#hotel.bar"]], onError := [.to []] },
    .transformInvocations fun i ↦ { i with autoForward := true },
    .appendTransition ((TransitionConfig.to ["hotel"]).onEvent "leave"),
    .transformTransitions fun t ↦ { t with guard := some (.named "awake") },
    .appendEntry (.named "smile"), .clearExit, .setInitial "stairs", .setHistory .deep,
    .setMetadata .null, .setDescription "tidy", .clearDescription, .setChildren [("stairs", {})]]

theorem PendingState.refines_edit_lobby :
    (∀ t ∈ State.lobby.transitions, t.source = State.lobby.id) ∧
      ((of .lobby).edit Edit.overhaul).Refines .lobby ((EagerState.of .lobby).run Edit.overhaul) ∧
        let t := ((of .lobby).edit Edit.overhaul).settle.state
        t.transitions.map (fun t ↦ (t.event, t.targets, t.internal)) =
            [("ring", ["#1", "hotel.bar"], false), ("", ["hotel.bar"], true),
              ("leave", ["hotel"], false), ("done.invoke.hotel.lobby:invocation[1]", ["hotel.bar"],
                false), ("error.platform.hotel.lobby:invocation[1]", [], true)] ∧
          t.invocations.map (·.id) = ["music", "hotel.lobby:invocation[1]"] ∧
            t.initial? = some "stairs" ∧ t.history? = none := by
  have hsource : ∀ t ∈ State.lobby.transitions, t.source = State.lobby.id := by decide
  exact ⟨hsource, refines_edit hsource Edit.overhaul, by decide +kernel, by decide +kernel, rfl,
    rfl⟩

end Statechart
