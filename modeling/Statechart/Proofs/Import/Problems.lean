import Statechart.Proofs.Import.Build
import Statechart.Proofs.Import.Index

/-!
# The problems of a config

`MachineConfig.problems` says what is wrong with a config without building anything: which ids are
repeated, and then, from the root down, what is wrong with the kind of each state, with its
children, and with its targets. An import reports this list, entry by entry, and succeeds exactly
if it is empty (`Machine.ofConfig_eq_error_iff_problems`).

Going on after a problem leads to no others: what is wrong with a state depends on its config and
on the index alone.
-/

namespace Statechart

namespace ConfigFacets

/-! ### What a state declares -/

/-- The transitions that a state declares: by event, on its completion, on those of its invocations,
after delays, and without an event. -/
def declared (f : ConfigFacets) : List TransitionConfig :=
  f.on.flatMap (·.2) ++ f.onDone ++ f.invocations.flatMap (fun i ↦ i.onDone ++ i.onError)
    ++ f.after.flatMap (·.2) ++ f.always

/-- Is the state said to be of a kind that has no children? -/
def isLeaf (f : ConfigFacets) : Bool :=
  match f.type with
  | some .atomic | some .final | some .history => true
  | _ => false

/-- What is wrong with the start of a compound state with children under these keys. -/
def initialProblems (f : ConfigFacets) (id : String) (keys : List String) : List Problem :=
  match f.initial with
  | none => [.missingInitial id]
  | some key => if key ∈ keys then [] else [.unknownInitial id key]

/-- What is wrong with the kind of a state with children under these keys. Without a type a state
with children is compound, and one without children is a leaf, as is a compound one. -/
def kindProblems (f : ConfigFacets) (id : String) (keys : List String) : List Problem :=
  match f.type with
  | none | some .compound => if keys = [] then [] else f.initialProblems id keys
  | some .parallel => if keys = [] then [.emptyParallel id] else []
  | some leaf => if keys = [] then [] else [.unexpectedChildren id leaf]

/-- A problem for each target that does not resolve, written on the state `id` at `path`. -/
def targetProblems (f : ConfigFacets) (ix : Index) (id : String) (path : List String) :
    List Problem :=
  ((f.declared.flatMap (·.targets)).filter fun t ↦ (ix.resolve? path t).isNone).map
    (.unknownTarget id)

end ConfigFacets

mutual

/-- What is wrong with the state `id` at `path` and with all below it. The children of a leaf are
not looked at. -/
def StateConfig.problems (ix : Index) (id : String) (path : List String) :
    StateConfig → List Problem
  | ⟨f, states⟩ =>
    f.kindProblems id (Keyed.keys states)
      ++ (if f.isLeaf then [] else StateConfig.problemsBelow ix id path states)
      ++ f.targetProblems ix id path

/-- What is wrong with the children of the state `parent` at `path` and with all below them. -/
def StateConfig.problemsBelow (ix : Index) (parent : String) (path : List String) :
    List (String × StateConfig) → List Problem
  | [] => []
  | (key, c) :: es =>
    c.problems ix (c.id.getD (parent ++ "." ++ key)) (path ++ [key])
      ++ StateConfig.problemsBelow ix parent path es

end

/-- What is wrong with the config of a machine: first every id that an earlier state has already. -/
def MachineConfig.problems (c : MachineConfig) : List Problem :=
  let id := c.root.id.getD "(machine)"
  (Index.repeats c.outline.ids).map .duplicateId
    ++ c.root.problems (Index.below id c.root.states) id []

/-! ### The import finds them -/

namespace StateConfig

variable (ix : Index) (id key : String) (path : List String)

theorem problemsBelow_eq_flatMap (es : List (String × StateConfig)) :
    problemsBelow ix id path es =
      es.flatMap fun e ↦ e.2.problems ix (Index.childId id e.1 e.2) (path ++ [e.1]) := by
  induction es with
  | nil => rfl
  | cons e es ih => rw [problemsBelow, ih, List.flatMap_cons]; rfl

theorem problems_eq (c : StateConfig) :
    c.problems ix id path =
      c.kindProblems id (Keyed.keys c.states)
        ++ (if c.isLeaf then [] else
          c.states.flatMap fun e ↦ e.2.problems ix (Index.childId id e.1 e.2) (path ++ [e.1]))
        ++ c.targetProblems ix id path := by
  obtain ⟨f, states⟩ := c
  rw [problems, problemsBelow_eq_flatMap]

end StateConfig

namespace Import

variable (ix : Index) (id key : String) (path : List String)

theorem flatMap_invocationGroups (index : Nat) (is : List InvocationConfig) :
    (invocationGroups id index is).flatMap (·.transitions) =
      is.flatMap fun i ↦ i.onDone ++ i.onError := by
  induction is generalizing index with
  | nil => rfl
  | cons i is ih =>
    rw [invocationGroups, List.flatMap_cons, List.flatMap_cons, ih, List.flatMap_cons,
      List.append_assoc]

/-- The groups hold the declared transitions, in their order. -/
theorem flatMap_groups (f : ConfigFacets) :
    (groups id f).flatMap (·.transitions) = f.declared := by
  simp only [groups, List.flatMap_append, List.flatMap_map, flatMap_invocationGroups,
    List.flatMap_cons, List.flatMap_nil, List.append_nil]
  rfl

theorem problems_transitions_strict (f : ConfigFacets) :
    (transitions ix .strict id path f).problems = f.targetProblems ix id path := by
  have hone : ∀ ts : List String,
      (ts.flatMap fun t ↦ (target ix .strict id path t).problems) =
        (ts.filter fun t ↦ (ix.resolve? path t).isNone).map (.unknownTarget id) := by
    intro ts
    induction ts with
    | nil => rfl
    | cons t ts ih =>
      rw [List.flatMap_cons, ih, problems_target_strict, List.filter_cons]
      split <;> rfl
  rw [problems_transitions, ConfigFacets.targetProblems, ← flatMap_groups id, ← hone]
  simp only [List.flatMap_assoc]

theorem problems_initial (f : ConfigFacets) (states : List (String × StateConfig)) :
    (initial id f states).problems = f.initialProblems id (Keyed.keys states) := by
  rw [initial, ConfigFacets.initialProblems]
  cases f.initial with
  | none => rfl
  | some key =>
    simp only [Keyed.has, List.contains_iff_mem]
    split <;> rfl

theorem problems_leaf (states : List (String × StateConfig)) (leafType : StateType)
    (k : StateKind State) :
    (leaf id states leafType k).problems =
      if Keyed.keys states = [] then [] else [.unexpectedChildren id leafType] := by
  cases states <;> rfl

/-- A kind is reported on before the children, and a leaf has none to report on. -/
theorem problems_kind (c : StateConfig) :
    (kind id c.toConfigFacets c.states (below ix .strict id path c)).problems =
      c.kindProblems id (Keyed.keys c.states)
        ++ if c.isLeaf then [] else (below ix .strict id path c).problems := by
  have hempty : c.states = [] → (below ix .strict id path c).problems = [] := fun h ↦ by
    rw [problems_below, h, List.flatMap_nil]
  obtain ⟨f, states⟩ := c
  generalize below ix .strict id path ⟨f, states⟩ = children at hempty ⊢
  rw [kind, type, ConfigFacets.kindProblems, ConfigFacets.isLeaf]
  rcases f.type with - | (- | - | - | - | -)
  case none | some.compound =>
    cases states with
    -- a compound state without children is a leaf, and the list of its children is empty
    | nil => exact (hempty rfl).symm
    | cons e es =>
      show (initial id f (e :: es)).problems ++ (children.problems ++ []) = _
      rw [problems_initial, List.append_nil]
      rfl
  case some.parallel =>
    cases states with
    | nil => exact congrArg _ (List.append_nil _)
    | cons e es => exact List.append_nil _
  all_goals exact (problems_leaf id states _ _).trans (List.append_nil _).symm

/-- An import of a state finds what is wrong with its config. -/
theorem problems_state_strict (c : StateConfig) :
    (state ix .strict id key path c).problems = c.problems ix id path := by
  induction c using StateConfig.induction generalizing id key path with
  | step c ih =>
    have hbelow : (below ix .strict id path c).problems =
        c.states.flatMap fun e ↦ e.2.problems ix (Index.childId id e.1 e.2) (path ++ [e.1]) := by
      rw [problems_below]
      exact List.flatMap_congr fun e he ↦ ih e he _ _ _
    rw [problems_state, problems_kind, problems_transitions_strict, hbelow,
      StateConfig.problems_eq]

end Import

namespace Machine

theorem problems_check (c : MachineConfig) : (check c).problems = c.problems := by
  have hids : (Index.below (c.root.id.getD defaultId) c.root.states).ids = c.outline.ids :=
    Index.ids_below _ _ c.root
  show (Checked.each _ (Index.duplicates _)).problems ++ (Import.state _ _ _ _ _ _).problems = _
  rw [Checked.problems_each, Index.duplicates_eq_repeats, hids, Import.problems_state_strict]
  simp only [Checked.problems_report, ← List.map_eq_flatMap]
  rfl

theorem ofConfig_eq (c : MachineConfig) :
    ofConfig c =
      if c.problems = [] then .ok ⟨(check c).value, c.context⟩ else .error c.problems := by
  show (if (check c).problems.isEmpty then _ else Except.error (check c).problems) = _
  rw [problems_check]
  cases c.problems <;> rfl

/-- **An import reports exactly the problems of a config, in their order**, and gives a machine
exactly if there are none. -/
theorem ofConfig_eq_error_iff_problems (c : MachineConfig) :
    ((∃ m, ofConfig c = .ok m) ↔ c.problems = []) ∧
      ∀ ps, ofConfig c = .error ps ↔ ps = c.problems ∧ ps ≠ [] := by
  rw [ofConfig_eq]
  by_cases h : c.problems = []
  · rw [if_pos h]
    refine ⟨⟨fun _ ↦ h, fun _ ↦ ⟨_, rfl⟩⟩, fun ps ↦ ⟨fun hps ↦ (nomatch hps), ?_⟩⟩
    rintro ⟨rfl, hne⟩
    exact absurd h hne
  · rw [if_neg h]
    refine ⟨⟨fun ⟨_, hm⟩ ↦ (nomatch hm), fun hnil ↦ absurd hnil h⟩, fun ps ↦ ?_⟩
    rw [Except.error.injEq, eq_comm]
    exact ⟨fun hps ↦ ⟨hps, hps ▸ h⟩, fun hps ↦ hps.1⟩

end Machine

end Statechart
