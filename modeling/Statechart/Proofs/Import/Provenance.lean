import Statechart.Proofs.Category
import Statechart.Proofs.Import.Soundness
import Mathlib.Data.List.Forall2

/-!
# Where imported transitions come from

The config of a state declares transitions in several sections, and an import puts all of them into
one list. All that is left of a section is an event, whose name is made from the id of the state or
of an invocation, and perhaps a delay. Still nothing is lost (`Machine.declaredBy_of_ofConfig`): the
list has the declared transitions one by one and in order, and the category of a transition tells
where it was declared, unless that is under an event that the config names.

Which transitions a group holds and which event they get is known of each section by itself
(`Import.forall₂_holds`); the rest is one transition at a time (`declaredAs_value_transition`).
-/

namespace Statechart

/-- Where in the config of a state a transition is declared. -/
inductive Origin where
  /-- On an event that the config names. -/
  | on (event : String)
  | onDone
  /-- On the completion of the invocation of this number. -/
  | invocationDone (n : Nat)
  /-- On the failure of the invocation of this number. -/
  | invocationError (n : Nat)
  /-- After the delay of this key. -/
  | after (key : String)
  | always

namespace Origin

/-- The delay that comes with the origin. -/
def delay? : Origin → Option Delay
  | .after key => some (Delay.ofKey key)
  | _ => none

/-- The event of the transitions that the state `s` declares there. An invocation that the state
does not have has none. -/
def event? (s : State) : Origin → Option String
  | .on event => some event
  | .onDone => some (Event.doneState s.id)
  | .invocationDone n => s.invocations[n]?.map fun i ↦ Event.doneInvoke i.id
  | .invocationError n => s.invocations[n]?.map fun i ↦ Event.errorPlatform i.id
  | .after key => some (Event.after (Delay.ofKey key) s.id)
  | .always => some Event.always

/-- The category that tells the origin of a transition of the state `s`, if its config gives it no
delay. Transitions on an event that the config names can be in any category. -/
def category? (s : State) : Origin → Option Category
  | .on _ => none
  | .onDone => some (.stateDone s.id)
  | .invocationDone n => s.invocations[n]?.map fun i ↦ .invocationDone i.id
  | .invocationError n => s.invocations[n]?.map fun i ↦ .invocationError i.id
  | .after _ => some .delayDone
  | .always => some .always

/-- Where there is no delay, the event is the one of the category. -/
theorem category?_of_event? {s : State} {o : Origin} {event : String} (hon : ∀ e, o ≠ .on e)
    (hdelay : o.delay? = none) (h : o.event? s = some event) :
    ∃ c : Category, o.category? s = some c ∧ c.event? = some event := by
  cases o with
  | on e => exact absurd rfl (hon e)
  | after key => cases hdelay
  | onDone | always => exact ⟨_, rfl, h⟩
  | invocationDone n | invocationError n =>
    obtain ⟨i, hi, rfl⟩ := Option.map_eq_some_iff.1 h
    exact ⟨_, congrArg (Option.map _) hi, rfl⟩

/-- A delay that comes with the origin tells it. -/
theorem category?_of_delay? {s : State} {o : Origin} {d : Delay} (h : o.delay? = some d) :
    o.category? s = some .delayDone := by
  cases o with
  | after key => rfl
  | on | onDone | invocationDone | invocationError | always => cases h

end Origin

namespace ConfigFacets

/-- The sections of a config, in which it declares transitions: by event, on the completion of the
state, on those of its invocations, after delays, and without an event. -/
def sections (f : ConfigFacets) : List (Origin × List TransitionConfig) :=
  f.on.map (fun e ↦ (.on e.1, e.2))
    ++ [(.onDone, f.onDone)]
    ++ f.invocations.zipIdx.flatMap (fun (i, n) ↦
      [(.invocationDone n, i.onDone), (.invocationError n, i.onError)])
    ++ f.after.map (fun e ↦ (.after e.1, e.2))
    ++ [(.always, f.always)]

/-- The transitions that a config declares, each with its origin. -/
def declarations (f : ConfigFacets) : List (Origin × TransitionConfig) :=
  f.sections.flatMap fun e ↦ e.2.map (Prod.mk e.1)

end ConfigFacets

/-- The transition `t` of the state `s` is the one that a config declares as `c` at the origin
`o`. -/
structure Transition.DeclaredAs (t : Transition) (s : State) (o : Origin) (c : TransitionConfig) :
    Prop where
  /-- It starts at the state, and all but the event and the targets is as declared. -/
  eq_assemble : t = Import.assemble s.id t.event o.delay? c t.targets
  /-- No target is left out. -/
  length_targets : t.targets.length = c.targets.length
  event_eq : o.event? s = some t.event
  category_of_delay : c.delay ≠ none → t.category = .delayDone
  /-- Without a delay of its own, the transition shows where it is declared. -/
  category_eq : c.delay = none → (∀ e, o ≠ .on e) → o.category? s = some t.category

/-- The state `s` is the one that `c` declares, with the transitions that `c` declares, one by one
and in order. -/
structure State.DeclaredBy (s : State) (c : StateConfig) : Prop where
  outline_eq : s.outline = c.outline s.id s.key
  /-- Invocations have the ids that the config gives them, or else are known by their numbers. -/
  map_id_invocations : s.invocations.map (·.id) =
    c.invocations.zipIdx.map fun (i, n) ↦
      i.id.getD (s.id ++ ":invocation[" ++ Decimal.text n ++ "]")
  transitions :
    List.Forall₂ (fun t e ↦ t.DeclaredAs s e.1 e.2) s.transitions c.declarations

/-- The group holds a section of the config of the state `s`, with the event and the delay of its
origin. -/
structure Import.Group.Holds (s : State) (g : Group) (e : Origin × List TransitionConfig) :
    Prop where
  transitions_eq : g.transitions = e.2
  delay_eq : g.delay = e.1.delay?
  event_eq : e.1.event? s = some g.event

namespace Import

variable {ix : Index} {id key : String} {path : List String} {c : StateConfig} {s : State}

/-! ### Sections -/

theorem forall₂_map_map {α β γ : Type} {R : β → γ → Prop} {f : α → β} {g : α → γ} {xs : List α}
    (h : ∀ x ∈ xs, R (f x) (g x)) : List.Forall₂ R (xs.map f) (xs.map g) := by
  rw [List.forall₂_map_left_iff, List.forall₂_map_right_iff, List.forall₂_same]
  exact h

/-- An invocation has the same number in the config and in the state. -/
theorem map_id_getElem?_toInvocations {is : List InvocationConfig} {i : InvocationConfig} {n : Nat}
    (h : (i, n) ∈ is.zipIdx) :
    ((InvocationConfig.toInvocations id 0 is)[n]?).map (·.id) = some (i.idAt id n) := by
  have hi : is[n]? = some i := List.mem_zipIdx_iff_getElem?.1 h
  rw [InvocationConfig.toInvocations_eq_map_zipIdx, List.getElem?_map, List.getElem?_zipIdx, hi,
    Nat.zero_add]
  rfl

/-- **Each section is a group**, and each group is a section. -/
theorem forall₂_holds {f : ConfigFacets}
    (hs : s.invocations = InvocationConfig.toInvocations s.id 0 f.invocations) :
    List.Forall₂ (Group.Holds s) (groups s.id f) f.sections := by
  have hon : List.Forall₂ (Group.Holds s) (f.on.map fun e ↦ ⟨e.1, none, e.2⟩)
      (f.on.map fun e ↦ (.on e.1, e.2)) :=
    forall₂_map_map fun e _ ↦ ⟨rfl, rfl, rfl⟩
  have honDone : Group.Holds s ⟨Event.doneState s.id, none, f.onDone⟩ (.onDone, f.onDone) :=
    ⟨rfl, rfl, rfl⟩
  have hinvocations : List.Forall₂ (Group.Holds s) (invocationGroups s.id 0 f.invocations)
      (f.invocations.zipIdx.flatMap fun (i, n) ↦
        [(.invocationDone n, i.onDone), (.invocationError n, i.onError)]) := by
    rw [invocationGroups_eq_flatMap_zipIdx, List.flatMap_def, List.flatMap_def]
    refine List.rel_flatten (forall₂_map_map fun e he ↦ ?_)
    have hid : (s.invocations[e.2]?).map (·.id) = some (e.1.idAt s.id e.2) := by
      rw [hs]
      exact map_id_getElem?_toInvocations he
    obtain ⟨i, hi, hid⟩ := Option.map_eq_some_iff.1 hid
    refine .cons ⟨rfl, rfl, ?_⟩ (.cons ⟨rfl, rfl, ?_⟩ .nil)
    · rw [Origin.event?, hi, Option.map_some, hid]
    · rw [Origin.event?, hi, Option.map_some, hid]
  have hafter : List.Forall₂ (Group.Holds s)
      (f.after.map fun e ↦
        ⟨Event.after (Delay.ofKey e.1) s.id, some (Delay.ofKey e.1), e.2⟩)
      (f.after.map fun e ↦ (.after e.1, e.2)) :=
    forall₂_map_map fun e _ ↦ ⟨rfl, rfl, rfl⟩
  have halways : Group.Holds s ⟨Event.always, none, f.always⟩ (.always, f.always) :=
    ⟨rfl, rfl, rfl⟩
  rw [groups, ConfigFacets.sections]
  exact List.rel_append (List.rel_append (List.rel_append (List.rel_append hon
    (.cons honDone .nil)) hinvocations) hafter) (.cons halways .nil)

/-! ### Transitions -/

/-- **One transition.** If all its targets resolve, none of them is left out, and the category tells
the origin from which the event and the delay came. -/
theorem declaredAs_value_transition {o : Origin} {event : String} {c : TransitionConfig}
    (htargets : ∀ r ∈ c.targets, (ix.resolve? path r).isSome)
    (hevent : o.event? s = some event) :
    (transition ix .strict s.id path event o.delay? c).value.DeclaredAs s o c := by
  have ht := value_transition ix .strict s.id path event o.delay? c
  generalize (transition ix .strict s.id path event o.delay? c).value = t at ht
  obtain rfl : t.event = event := by rw [ht]; rfl
  have hdelay : t.delay = (o.delay? <|> c.delay) := by rw [ht]; rfl
  refine ⟨?_, ?_, hevent, fun hne ↦ ?_, fun hnone hon ↦ ?_⟩
  · rw [ht]
    rfl
  · rw [ht]
    simp only [value_target_strict]
    exact List.filterMap_length_eq_length.2 htargets
  · refine Transition.category_of_delay fun hno ↦ hne ?_
    rw [hdelay] at hno
    cases hdelay' : o.delay? with
    | none => rwa [hdelay'] at hno
    | some d => rw [hdelay'] at hno; cases hno
  · rw [hnone] at hdelay
    cases hdelay' : o.delay? with
    | none =>
      -- the event is the one of a category, and belongs to no other
      obtain ⟨k, hk, hkevent⟩ := Origin.category?_of_event? hon hdelay' hevent
      rw [hdelay'] at hdelay
      rw [hk, Transition.category_of_event? hdelay hkevent]
    | some d =>
      have hdelayed : t.category = .delayDone := Transition.category_of_delay fun hno ↦ by
        rw [hno, hdelay'] at hdelay
        cases hdelay
      rw [hdelayed, Origin.category?_of_delay? hdelay']

/-- The transitions of a state without problems are the declared ones. -/
theorem forall₂_declaredAs_value_transitions {f : ConfigFacets}
    (hs : s.invocations = InvocationConfig.toInvocations s.id 0 f.invocations)
    (h : f.targetProblems ix s.id path = []) :
    List.Forall₂ (fun t e ↦ t.DeclaredAs s e.1 e.2) (transitions ix .strict s.id path f).value
      f.declarations := by
  have htargets : ∀ g ∈ groups s.id f, ∀ c ∈ g.transitions, ∀ r ∈ c.targets,
      (ix.resolve? path r).isSome := by
    intro g hg c hc r hr
    have hmem : r ∈ f.declared.flatMap (·.targets) := by
      rw [← flatMap_groups s.id f]
      exact List.mem_flatMap.2 ⟨c, List.mem_flatMap.2 ⟨g, hg, hc⟩, hr⟩
    have hresolved := List.filter_eq_nil_iff.1 (List.map_eq_nil_iff.1 h) r hmem
    exact Option.isNone_eq_false_iff.1 (Bool.eq_false_iff.2 hresolved)
  have hgroups := (List.forall₂_and_left _ _).2 ⟨htargets, forall₂_holds hs⟩
  rw [value_transitions, ConfigFacets.declarations]
  refine List.rel_flatMap hgroups fun g e hge ↦ ?_
  obtain ⟨hresolved, htransitions, hdelay, hevent⟩ := hge
  rw [← htransitions, hdelay]
  exact forall₂_map_map fun c hc ↦ declaredAs_value_transition (hresolved c hc) hevent

/-! ### States -/

theorem declaredBy_value_state (h : c.problems ix id path = []) :
    (state ix .strict id key path c).value.DeclaredBy c := by
  have hid : (state ix .strict id key path c).value.id = id := id_value_state
  have hkey : (state ix .strict id key path c).value.key = key := key_value_state
  have hinvocations : (state ix .strict id key path c).value.invocations =
      InvocationConfig.toInvocations id 0 c.invocations := by
    rw [value_state]
    rfl
  have htransitions : (state ix .strict id key path c).value.transitions =
      (transitions ix .strict id path c.toConfigFacets).value := transitions_value_state
  have houtline : (state ix .strict id key path c).value.outline = c.outline id key :=
    outline_value_state h
  generalize (state ix .strict id key path c).value = s at *
  obtain rfl := hid
  obtain rfl := hkey
  refine ⟨houtline, ?_, ?_⟩
  · rw [hinvocations, InvocationConfig.toInvocations_eq_map_zipIdx, List.map_map]
    rfl
  · rw [htransitions]
    exact forall₂_declaredAs_value_transitions hinvocations (problems_eq_nil_iff.1 h).2.2

theorem forall₂_declaredBy_preorder_value_state (h : c.problems ix id path = []) :
    List.Forall₂ State.DeclaredBy (state ix .strict id key path c).value.preorder c.preorder := by
  induction c using StateConfig.induction generalizing id key path with
  | step c ih =>
    obtain ⟨hkind, hbelow, -⟩ := problems_eq_nil_iff.1 h
    rw [State.preorder_eq_cons, StateConfig.preorder_eq_cons, children_value_state hkind,
      List.flatMap_map, List.flatMap_def, List.flatMap_def]
    exact .cons (declaredBy_value_state h)
      (List.rel_flatten (forall₂_map_map fun e he ↦ ih e he (hbelow e he)))

end Import

/-- **Imports keep every declared transition, and categories tell where they were declared.** Each
state of an imported machine, in the order of a walk, is declared by the config that stands at the
same place in the walk over the configs: it has the transitions that this declares, one by one and
in order, each with all its targets. -/
theorem Machine.declaredBy_of_ofConfig {c : MachineConfig} {m : Machine} (h : ofConfig c = .ok m) :
    List.Forall₂ State.DeclaredBy m.root.preorder c.root.preorder := by
  obtain ⟨-, hproblems, rfl⟩ := ofConfig_eq_ok_iff.1 h
  exact Import.forall₂_declaredBy_preorder_value_state hproblems

/-- A ferry that declares transitions in every section. One invocation has no id, one event that it
names is that of another section, and two transitions have a delay of their own. -/
def MachineConfig.ferry : MachineConfig where
  root := {
    id := some "ferry"
    initial := some "pier"
    states := [
      ("pier", {
        id := some "pier.1"
        on := [("board", [.to [".gate"], .to ["lake", "#ferry"]]), ("done.state.lake", [.to []])]
        onDone := [.to ["lake"], { targets := ["lake"], delay := some (.millis 3) }]
        invocations := [
          { source := "bell", onDone := [.to ["#lake"]] },
          { id := some "horn", source := "horn", onDone := [.to []], onError := [.to ["pier"]] }]
        initial := some "gate"
        states := [("gate", {})] }),
      ("lake", {
        id := some "lake"
        after := [("60", [.to ["pier"]]), ("dusk", [.to ["pier.gate"]])]
        always := [.to [], { delay := some (.named "fog") }] })] }
  context := .null

theorem Machine.declaredBy_of_ofConfig_ferry :
    ∃ m, ofConfig MachineConfig.ferry = .ok m ∧
      List.Forall₂ State.DeclaredBy m.root.preorder MachineConfig.ferry.root.preorder ∧
        m.root.preorder.map (fun s ↦ s.transitions.map (·.category)) =
          [[],
            [.eventOccurred, .eventOccurred, .stateDone "lake", .stateDone "pier.1", .delayDone,
              .invocationDone "pier.1:invocation[0]", .invocationDone "horn",
              .invocationError "horn"],
            [], [.delayDone, .delayDone, .always, .delayDone]] := by
  have hok : ofConfig MachineConfig.ferry = .ok _ := (ofConfig_eq _).trans (if_pos (by decide))
  exact ⟨_, hok, declaredBy_of_ofConfig hok, by decide +kernel⟩

end Statechart
