import Statechart.Proofs.Import.Declared
import Statechart.Proofs.Position
import Mathlib.Data.List.Forall2

/-!
# Targets outside of what is declared

States that are declared below an existing state can have transitions to states that are not among
them. The absolute reference to such a state resolves to nothing, and the id in it is kept. So it
should be in every section of every declared config, and it should be the id that a transition in
structured form gets from the same reference.

`Import.targets_declared` says what is kept: the id without the number signs at its front. The two
ways to read an absolute reference part where there is one, since the reference has one more of them
and only the structured form takes off no more than that (`Import.not_targets_declared`).
-/

namespace Statechart

namespace Text

/-- A text loses something exactly if it starts with a mark. -/
theorem trimLead_eq_self_iff {mark : Char} {s : String} :
    trimLead mark s = s ↔ ∀ rest, s ≠ String.singleton mark ++ rest := by
  have hchars : trimLead mark s = s ↔ s.toList.dropWhile (· == mark) = s.toList := by
    rw [trimLead, ← String.toList_inj, String.toList_ofList]
  have hstart : (∀ rest, s ≠ String.singleton mark ++ rest) ↔
      ∀ cs, s.toList ≠ mark :: cs := by
    constructor
    · intro h cs hcs
      refine h (String.ofList cs) (String.toList_injective ?_)
      rw [hcs, String.toList_append, String.toList_singleton, String.toList_ofList]
      rfl
    · rintro h rest rfl
      exact h rest.toList (by rw [String.toList_append, String.toList_singleton]; rfl)
  rw [hchars, hstart]
  cases s.toList with
  | nil => exact iff_of_true rfl fun cs ↦ nofun
  | cons c cs =>
    by_cases hc : c = mark
    · refine iff_of_false (fun h ↦ ?_) fun h ↦ h cs (by rw [hc])
      rw [List.dropWhile_cons_of_pos (by rw [hc]; exact beq_self_eq_true mark)] at h
      have hlength := (List.dropWhile_sublist (l := cs) (· == mark)).length_le
      rw [h] at hlength
      exact absurd hlength (Nat.not_succ_le_self _)
    · refine iff_of_true (List.dropWhile_cons_of_neg (mt beq_iff_eq.1 hc)) fun ds hds ↦ ?_
      exact hc (List.cons.inj hds).1

/-- A mark in front makes no difference. -/
theorem trimLead_append (mark : Char) (s : String) :
    trimLead mark (String.singleton mark ++ s) = trimLead mark s := by
  have hcons : (String.singleton mark ++ s).toList = mark :: s.toList := by
    rw [String.toList_append, String.toList_singleton]
    rfl
  have hdrop : (mark :: s.toList).dropWhile (· == mark) = s.toList.dropWhile (· == mark) :=
    List.dropWhile_cons_of_pos (beq_self_eq_true mark)
  rw [trimLead, hcons, hdrop, trimLead]

end Text

namespace StateConfig

/-- The config at a position, if the tree goes that far. -/
def at? (c : StateConfig) : List Nat → Option StateConfig
  | [] => some c
  | i :: a => c.states[i]?.bind fun e ↦ e.2.at? a

end StateConfig

/-- Where a config of the list has the target `reference`, the transition in its place has the
target `id`. -/
def Transition.Targets (reference id : String) : List Transition → List TransitionConfig → Prop :=
  List.Forall₂ fun t c ↦
    List.Forall₂ (fun target written ↦ written = reference → target = id) t.targets c.targets

namespace Import

variable {ix : Index} {id key x : String} {path : List String} {c : StateConfig}

/-! ### What is kept -/

/-- A target that does not resolve is kept without the number signs at its front. -/
theorem value_target_lenient_eq (reference : String) :
    (target ix .lenient id path reference).value =
      some ((ix.resolve? path reference).getD (Text.trimLead '#' reference)) := by
  rw [target]
  cases ix.resolve? path reference <;> rfl

/-- None of the targets is left out. -/
theorem targets_value_transition_lenient (event : String) (delay : Option Delay)
    (c : TransitionConfig) :
    (transition ix .lenient id path event delay c).value.targets =
      c.targets.map fun r ↦ (ix.resolve? path r).getD (Text.trimLead '#' r) := by
  rw [value_transition, ← List.filterMap_eq_map]
  exact List.filterMap_congr fun r _ ↦ value_target_lenient_eq r

/-- **One state.** In each section an absolute reference that resolves to nothing is kept. -/
theorem targets_value_transitions
    (hx : ix.resolve? [] (Reference.absolute x) = none) (f : ConfigFacets) :
    Transition.Targets (Reference.absolute x) (Text.trimLead '#' x)
      (transitions ix .lenient id path f).value f.declared := by
  rw [value_transitions, ← flatMap_groups id f, Transition.Targets]
  refine List.rel_flatMap (List.forall₂_same.2 fun g _ ↦ rfl) ?_
  rintro g _ rfl
  rw [List.forall₂_map_left_iff, List.forall₂_same]
  intro config _
  rw [targets_value_transition_lenient, List.forall₂_map_left_iff, List.forall₂_same]
  rintro r _ rfl
  rw [Index.resolve?_absolute_source, hx, Option.getD_none]
  exact Text.trimLead_append '#' x

/-! ### The whole tree -/

/-- Every state that is built is built from the config at its position. -/
theorem exists_at?_of_at?_value_state {r : Resolution} {a : List Nat} {u : State}
    (h : (state ix r id key path c).value.at? a = some u) :
    ∃ d id' key' path', c.at? a = some d ∧ u = (state ix r id' key' path' d).value := by
  induction a generalizing c id key path with
  | nil => exact ⟨c, id, key, path, rfl, (Option.some.inj h).symm⟩
  | cons i a ih =>
    obtain ⟨s, hs, ha⟩ := State.at?_cons_eq_some_iff.1 h
    -- a state that has a child has all that are declared for it
    have hbelow : (below ix r id path c).value[i]? = some s := by
      rcases kind_value_state_forms ix r id key path c with ⟨hnil, -⟩ | ⟨-, -, hk⟩ | ⟨-, hk⟩
      · rw [hnil] at hs
        cases hs
      · rwa [State.children, hk] at hs
      · rwa [State.children, hk] at hs
    rw [value_below, List.getElem?_map] at hbelow
    obtain ⟨e, he, rfl⟩ := Option.map_eq_some_iff.1 hbelow
    obtain ⟨d, id', key', path', hd, hu⟩ := ih ha
    exact ⟨d, id', key', path', by rw [StateConfig.at?, he]; exact hd, hu⟩

/-- **Which ids are kept.** Let an absolute reference resolve to nothing among the states that are
declared below `parent`. Each declared state is the one that the config at its position declares,
and where this has the reference for a target, in whichever section, the state has a transition to
the id without the number signs at its front. This is the id itself, and so what a transition in
structured form has for a target, exactly if the id does not start with a number sign. -/
theorem targets_declared {parent : String} {states : List (String × StateConfig)}
    (hx : (Index.below parent states).resolve? [] (Reference.absolute x) = none) :
    (∀ (n : Nat) (a : List Nat) (s u : State), (declared parent states)[n]? = some s →
      s.at? a = some u → ∃ (e : String × StateConfig) (d : StateConfig), states[n]? = some e ∧
        e.2.at? a = some d ∧ Transition.Targets (Reference.absolute x) (Text.trimLead '#' x)
          u.transitions d.declared) ∧
      TransitionConfig.targetId (Reference.absolute x) = x ∧
      (Text.trimLead '#' x = x ↔ ∀ rest, x ≠ "#" ++ rest) := by
  refine ⟨fun n a s u hs hu ↦ ?_, ?_, Text.trimLead_eq_self_iff⟩
  · rw [declared_eq_map, List.getElem?_map] at hs
    obtain ⟨e, he, rfl⟩ := Option.map_eq_some_iff.1 hs
    obtain ⟨d, id, key, path, hd, rfl⟩ := exists_at?_of_at?_value_state hu
    refine ⟨e, d, he, hd, ?_⟩
    rw [transitions_value_state]
    exact targets_value_transitions hx d.toConfigFacets
  · rw [TransitionConfig.targetId, Index.absoluteId?_absolute, Option.getD_some]

/-- A ladder up to an attic, from which one can go back or leave. -/
def ladder : List (String × StateConfig) :=
  [("ladder", {
    initial := some "attic"
    states := [("attic", {
      on := [("jump", [.to ["#street", "##street"]])]
      always := [.to ["#house", "#street"]] })] })]

theorem targets_declared_ladder :
    (Index.below "house" ladder).resolve? [] "#street" = none ∧
      ∃ s u, (declared "house" ladder)[0]? = some s ∧ s.at? [0] = some u ∧
        u.transitions.map (·.targets) = [["street", "street"], ["house", "street"]] ∧
        ∃ e d, ladder[0]? = some e ∧ e.2.at? [0] = some d ∧
          Transition.Targets "#street" "street" u.transitions d.declared := by
  have hx : (Index.below "house" ladder).resolve? [] (Reference.absolute "street") = none := by
    decide
  obtain ⟨hdeclared, -, -⟩ := targets_declared hx
  have hstreet : Text.trimLead '#' "street" = "street" := by decide
  rw [hstreet] at hdeclared
  exact ⟨hx, _, _, rfl, rfl, by decide, hdeclared 0 [0] _ _ rfl rfl⟩

/-- An id that starts with a number sign is not kept as it is. -/
theorem not_targets_declared :
    ¬ ∀ (parent : String) (states : List (String × StateConfig)) (x : String),
      (Index.below parent states).resolve? [] (Reference.absolute x) = none →
        ∀ (n : Nat) (a : List Nat) (s u : State), (declared parent states)[n]? = some s →
          s.at? a = some u → ∃ (e : String × StateConfig) (d : StateConfig),
            states[n]? = some e ∧ e.2.at? a = some d ∧
              Transition.Targets (Reference.absolute x) x u.transitions d.declared := by
  intro h
  obtain ⟨e, d, he, hd, htargets⟩ := h "house" ladder "#street" (by decide) 0 [0] _ _ rfl rfl
  obtain rfl := Option.some.inj he
  obtain rfl := Option.some.inj hd
  have hstreet : "street" = "#street" := by
    obtain _ | ⟨_ | ⟨-, _ | ⟨hsecond, -⟩⟩, -⟩ := htargets
    exact hsecond rfl
  exact absurd hstreet (by decide)

end Import

end Statechart
