import Statechart.Config.LongForm
import Statechart.Proofs.Delay
import Statechart.Proofs.Export.Grouping

/-!
# The places of an exported transition

The config of a state declares each of its transitions at one of three places: under its event,
after its delay, or without an event (`Transition.place`). Under events and delays the transitions
are grouped. Read place by place, the transitions therefore come in the order
`Transition.arrange`, which may not be the one in which the state had them.

What an import makes of the three places is `Transition.reread`. It differs from the arranged list
in one thing only: a delay is what its key reads as, so a name that is a numeral becomes a count.
A list is read back as it was exactly if it is arranged and no delay of it is such a name
(`Transition.reread_eq_self_iff`).
-/

namespace Statechart

/-- Where a config declares a transition. -/
inductive Place where
  | on
  | after
  | always
deriving DecidableEq

namespace Transition

/-- The place at which the config of the state `id` declares the transition: after its delay if its
event is that of the delay, and without an event if it needs neither an event nor a delay. -/
def place (id : String) (t : Transition) : Place :=
  match t.delay with
  | some delay => if t.event = Event.after delay id then .after else .on
  | none => if t.isAlways then .always else .on

/-- The transitions at one place, in their order. -/
def placed (id : String) (p : Place) (ts : List Transition) : List Transition :=
  ts.filter (·.place id = p)

/-- **The order in which a config declares transitions**: those under `on`, event by event, then
those under `after`, delay by delay, then those without an event. Events and delays come in the
order in which they first occur. -/
def arrange (id : String) (ts : List Transition) : List Transition :=
  Keyed.grouped (·.event) (placed id .on ts) ++ Keyed.grouped (·.delay) (placed id .after ts)
    ++ placed id .always ts

/-- The key under which a delayed transition is declared. -/
def delayKey (t : Transition) : String := (t.delay.map Delay.key).getD ""

/-- The transition with its delay read from the key, and with the event of that delay. -/
def retimed (id : String) (t : Transition) : Transition :=
  { t with
    event := Event.after (Delay.ofKey t.delayKey) id
    delay := some (Delay.ofKey t.delayKey) }

/-- The transitions of the state `id`, read from its config. -/
def reread (id : String) (ts : List Transition) : List Transition :=
  Keyed.grouped (·.event) (placed id .on ts)
    ++ (Keyed.grouped delayKey (placed id .after ts)).map (retimed id)
    ++ placed id .always ts

variable {id : String} {t : Transition} {ts : List Transition} {p q : Place}

/-! ### Places -/

theorem place_eq_after_iff :
    t.place id = .after ↔ ∃ d, t.delay = some d ∧ t.event = Event.after d id := by
  rw [place]
  cases t.delay with
  | none => by_cases h : t.isAlways = true <;> simp [h]
  | some d => by_cases h : t.event = Event.after d id <;> simp [h]

theorem place_eq_always_iff : t.place id = .always ↔ t.delay = none ∧ t.event = Event.always := by
  rw [place, isAlways]
  cases t.delay with
  | none => by_cases h : t.event = Event.always <;> simp [h]
  | some d => by_cases h : t.event = Event.after d id <;> simp [h]

theorem mem_placed : t ∈ placed id p ts ↔ t ∈ ts ∧ t.place id = p := by
  rw [placed, List.mem_filter, decide_eq_true_iff]

/-- Each transition has one place. -/
theorem placed_append_perm (id : String) (ts : List Transition) :
    (placed id .on ts ++ placed id .after ts ++ placed id .always ts).Perm ts := by
  induction ts with
  | nil => rfl
  | cons t ts ih =>
    unfold placed at ih ⊢
    simp only [List.filter_cons, decide_eq_true_iff]
    -- the first transition comes behind those of the places before its own
    cases h : t.place id with
    | on =>
      simp only [reduceCtorEq, if_true, if_false, List.cons_append]
      exact ih.cons t
    | after =>
      simp only [reduceCtorEq, if_true, if_false]
      refine .trans ?_ (ih.cons t)
      rw [List.append_assoc, List.append_assoc]
      exact List.perm_middle
    | always =>
      simp only [reduceCtorEq, if_true, if_false]
      exact List.perm_middle.trans (ih.cons t)

/-! ### The arranged list -/

/-- Arranging transitions changes nothing but their order. -/
theorem arrange_perm (id : String) (ts : List Transition) : (arrange id ts).Perm ts :=
  (((Keyed.grouped_perm _ _).append (Keyed.grouped_perm _ _)).append_right _).trans
    (placed_append_perm id ts)

theorem mem_arrange : t ∈ arrange id ts ↔ t ∈ ts := (arrange_perm id ts).mem_iff

theorem placed_of_forall (h : ∀ t ∈ ts, t.place id = q) :
    placed id p ts = if p = q then ts else [] := by
  unfold placed
  split
  · next hpq => exact List.filter_eq_self.2 fun t ht ↦ decide_eq_true ((h t ht).trans hpq.symm)
  · next hpq =>
    refine List.filter_eq_nil_iff.2 fun t ht hp ↦ hpq ?_
    rw [← h t ht]
    exact (of_decide_eq_true hp).symm

/-- Each place of the arranged list has the transitions of that place, group by group. -/
theorem placed_arrange (id : String) (ts : List Transition) :
    placed id .on (arrange id ts) = Keyed.grouped (·.event) (placed id .on ts) ∧
      placed id .after (arrange id ts) = Keyed.grouped (·.delay) (placed id .after ts) ∧
        placed id .always (arrange id ts) = placed id .always ts := by
  have hon : ∀ t ∈ Keyed.grouped (·.event) (placed id .on ts), t.place id = .on :=
    fun t ht ↦ (mem_placed.1 (Keyed.mem_grouped.1 ht)).2
  have hafter : ∀ t ∈ Keyed.grouped (·.delay) (placed id .after ts), t.place id = .after :=
    fun t ht ↦ (mem_placed.1 (Keyed.mem_grouped.1 ht)).2
  have halways : ∀ t ∈ placed id .always ts, t.place id = .always :=
    fun t ht ↦ (mem_placed.1 ht).2
  have happend : ∀ p, placed id p (arrange id ts) =
      placed id p (Keyed.grouped (·.event) (placed id .on ts))
        ++ placed id p (Keyed.grouped (·.delay) (placed id .after ts))
        ++ placed id p (placed id .always ts) := fun p ↦ by
    rw [arrange, placed, List.filter_append, List.filter_append]
    rfl
  simp only [happend, placed_of_forall hon, placed_of_forall hafter, placed_of_forall halways,
    reduceCtorEq, if_true, if_false, List.append_nil, List.nil_append, and_self]

/-- **Arranging an arranged list changes nothing.** -/
theorem arrange_arrange (id : String) (ts : List Transition) :
    arrange id (arrange id ts) = arrange id ts := by
  obtain ⟨hon, hafter, halways⟩ := placed_arrange id ts
  conv_lhs => rw [arrange, hon, hafter, halways]
  rw [Keyed.grouped_grouped, Keyed.grouped_grouped, arrange]

/-! ### The list that is read back -/

/-- No delay under which a transition is declared is a name that reads as a count. -/
def DelaysKept (id : String) (ts : List Transition) : Prop :=
  ∀ t ∈ ts, t.place id = .after → ∀ d ∈ t.delay, d.isNumeral = false

/-- A transition under its delay is read back as it was, unless its delay is a name that reads as a
count. -/
theorem retimed_eq_self (ht : t.place id = .after)
    (hdelay : ∀ d ∈ t.delay, d.isNumeral = false) : retimed id t = t := by
  obtain ⟨d, hd, hevent⟩ := place_eq_after_iff.1 ht
  have hkey : Delay.ofKey t.delayKey = d := by
    rw [delayKey, hd]
    exact Delay.ofKey_key_iff.2 (hdelay d hd)
  rw [retimed, hkey, ← hevent, ← hd]

theorem reread_eq_arrange (h : DelaysKept id ts) : reread id ts = arrange id ts := by
  have hdelay : ∀ t ∈ placed id .after ts, ∃ d, t.delay = some d ∧ d.isNumeral = false := by
    intro t ht
    obtain ⟨hmem, hplace⟩ := mem_placed.1 ht
    obtain ⟨d, hd, -⟩ := place_eq_after_iff.1 hplace
    exact ⟨d, hd, h t hmem hplace d hd⟩
  have hgrouped : Keyed.grouped delayKey (placed id .after ts) =
      Keyed.grouped (·.delay) (placed id .after ts) := by
    refine Keyed.grouped_congr fun t ht u hu ↦ ?_
    obtain ⟨d, hd, hdn⟩ := hdelay t ht
    obtain ⟨e, he, hen⟩ := hdelay u hu
    simp only [delayKey, hd, he, Option.map_some, Option.getD_some, Option.some.injEq]
    exact ⟨Delay.key_injOn hdn hen, congrArg Delay.key⟩
  have hretimed : (Keyed.grouped (·.delay) (placed id .after ts)).map (retimed id) =
      Keyed.grouped (·.delay) (placed id .after ts) := by
    refine (List.map_congr_left fun t ht ↦ ?_).trans (List.map_id' _)
    obtain ⟨hmem, hplace⟩ := mem_placed.1 (Keyed.mem_grouped.1 ht)
    exact retimed_eq_self hplace (h t hmem hplace)
  rw [reread, hgrouped, hretimed, arrange]

/-- **A list is read back as it was** exactly if it is arranged and no delay in it is a name that
reads as a count. -/
theorem reread_eq_self_iff : reread id ts = ts ↔ arrange id ts = ts ∧ DelaysKept id ts := by
  constructor
  · intro h
    have hkept : DelaysKept id ts := by
      intro t ht hplace d hd
      rw [← h, reread, List.mem_append, List.mem_append, Keyed.mem_grouped, mem_placed,
        mem_placed] at ht
      -- only what was read from under a delay has its place there
      rcases ht with (⟨-, hon⟩ | hafter) | ⟨-, halways⟩
      · exact absurd (hplace.symm.trans hon) nofun
      · obtain ⟨u, -, rfl⟩ := List.mem_map.1 hafter
        rw [← Option.some.inj hd]
        exact Delay.isNumeral_ofKey u.delayKey
      · exact absurd (hplace.symm.trans halways) nofun
    exact ⟨(reread_eq_arrange hkept).symm.trans h, hkept⟩
  · rintro ⟨harrange, hkept⟩
    exact (reread_eq_arrange hkept).trans harrange

/-! ### The sections of a config -/

/-- The transition as it is declared under its event, or without one. -/
def underEvent (t : Transition) : TransitionConfig := { t.toConfig with event := none }

/-- The transition as it is declared under its delay. -/
def underDelay (t : Transition) : TransitionConfig :=
  { t.toConfig with event := none, delay := none }

end Transition

namespace State

open Transition

/-- The config of a state declares each transition at its place. -/
theorem declare_eq (id : String) (f : ConfigFacets) (t : Transition) :
    declare id f t =
      match t.place id with
      | .on => { f with on := Keyed.push t.event t.underEvent f.on }
      | .after => { f with after := Keyed.push t.delayKey t.underDelay f.after }
      | .always => { f with always := f.always ++ [t.underEvent] } := by
  rw [declare, place, delayKey]
  cases t.delay with
  | none => cases h : t.isAlways <;> simp only [Bool.false_eq_true, if_true, if_false] <;> rfl
  | some d => by_cases h : t.event = Event.after d id <;> simp only [h, if_true, if_false] <;> rfl

theorem foldl_declare (id : String) (f : ConfigFacets) (ts : List Transition) :
    ts.foldl (declare id) f =
      { f with
        on := (placed id .on ts).foldl (fun es t ↦ Keyed.push t.event t.underEvent es) f.on
        after := (placed id .after ts).foldl (fun es t ↦ Keyed.push t.delayKey t.underDelay es)
          f.after
        always := f.always ++ (placed id .always ts).map underEvent } := by
  induction ts generalizing f with
  | nil => simp only [placed, List.filter_nil, List.foldl_nil, List.map_nil, List.append_nil]
  | cons t ts ih =>
    rw [List.foldl_cons, ih, declare_eq]
    unfold placed
    simp only [List.filter_cons, decide_eq_true_iff]
    cases h : t.place id <;>
      simp only [reduceCtorEq, if_true, if_false, List.foldl_cons, List.map_cons, List.append_assoc,
        List.singleton_append]

/-- The config of a state declares its transitions place by place, in groups. -/
theorem ownConfig_eq (f : Facets) (k : StateKind State) :
    ownConfig f k =
      { bareConfig f k with
        on := (Keyed.groups (·.event) (placed f.id .on f.transitions)).map fun g ↦
          (g.1, g.2.map underEvent)
        after := (Keyed.groups delayKey (placed f.id .after f.transitions)).map fun g ↦
          (g.1, g.2.map underDelay)
        always := (placed f.id .always f.transitions).map underEvent } := by
  rw [ownConfig, foldl_declare, ← Keyed.foldl_push, ← Keyed.foldl_push]
  rfl

end State

end Statechart
