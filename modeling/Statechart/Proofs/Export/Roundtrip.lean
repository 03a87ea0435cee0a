import Statechart.Proofs.Export.Reimport

/-!
# Exporting and importing again

A machine that is exported and imported again is the same up to the order of the transitions in
each state: `Machine.ofConfig_toConfig`. What comes back is `Machine.arranged`, and to arrange an
arranged machine changes nothing, so a second round is the same as the first.

For machines that were imported themselves, `Machine.ofConfig_toConfig_eq_self_iff` says exactly
when a round gives back the machine. Two things can stand in its way: a config may declare
transitions in an order other than that of an export, and it may give a delayed transition a name
that reads as a count.
-/

namespace Statechart

namespace Machine

/-- The machine with the transitions of each state in the order of an export. -/
def arranged (m : Machine) : Machine := m.mapTransitions Transition.arrange

/-- No delay in the machine is a name that reads as a count. -/
def NumeralFree (m : Machine) : Prop :=
  ∀ s ∈ m.root.preorder, ∀ t ∈ s.transitions, ∀ d ∈ t.delay, d.isNumeral = false

instance (m : Machine) : Decidable m.NumeralFree :=
  inferInstanceAs
    (Decidable (∀ s ∈ m.root.preorder, ∀ t ∈ s.transitions, ∀ d ∈ t.delay, d.isNumeral = false))

variable {m : Machine}

/-! ### Arranging -/

theorem WellFormed.arranged (h : m.WellFormed) : m.arranged.WellFormed :=
  h.mapTransitions fun _ _ _ ht ↦ Transition.mem_arrange.1 ht

theorem NumeralFree.arranged (h : m.NumeralFree) : m.arranged.NumeralFree := by
  intro s hs t ht
  obtain ⟨u, hu, -, htransitions⟩ := exists_of_mem_preorder_mapTransitions hs
  rw [htransitions] at ht
  exact h u hu t (Transition.mem_arrange.1 ht)

theorem arranged_eq_self_iff :
    m.arranged = m ↔
      ∀ s ∈ m.root.preorder, Transition.arrange s.id s.transitions = s.transitions :=
  mapTransitions_eq_self_iff

theorem arranged_arranged (m : Machine) : m.arranged.arranged = m.arranged := by
  refine arranged_eq_self_iff.2 fun s hs ↦ ?_
  obtain ⟨u, -, hid, htransitions⟩ := exists_of_mem_preorder_mapTransitions hs
  rw [hid, htransitions]
  exact Transition.arrange_arrange u.id u.transitions

theorem ofConfig_toConfig_eq_arranged (h : m.WellFormed) (hkey : m.root.key = m.root.id)
    (hdelay : m.NumeralFree) : ofConfig m.toConfig = .ok m.arranged := by
  rw [ofConfig_toConfig_eq_reread h hkey]
  refine congrArg _ (mapTransitions_congr fun s hs ↦ ?_)
  exact Transition.reread_eq_arrange fun t ht _ ↦ hdelay s hs t ht

/-! ### Rounds -/

/-- **What a round of export and import does to a machine**: it arranges the transitions of each
state and does nothing else, and a further round does nothing at all. -/
theorem ofConfig_toConfig (h : m.WellFormed) (hkey : m.root.key = m.root.id)
    (hdelay : m.NumeralFree) :
    ofConfig m.toConfig = .ok m.arranged ∧
      (∀ s ∈ m.root.preorder, (Transition.arrange s.id s.transitions).Perm s.transitions) ∧
      (m.arranged = m ↔
        ∀ s ∈ m.root.preorder, Transition.arrange s.id s.transitions = s.transitions) ∧
      ofConfig m.arranged.toConfig = .ok m.arranged := by
  have hkey' : m.arranged.root.key = m.arranged.root.id := by
    have hfacets : m.arranged.root.toFacets =
        m.root.toFacets.mapTransitions Transition.arrange := State.toFacets_mapFacets _ _
    rw [hfacets]
    exact hkey
  have hagain : ofConfig m.arranged.toConfig = .ok m.arranged.arranged :=
    ofConfig_toConfig_eq_arranged h.arranged hkey' hdelay.arranged
  rw [arranged_arranged] at hagain
  exact ⟨ofConfig_toConfig_eq_arranged h hkey hdelay,
    fun s _ ↦ Transition.arrange_perm s.id s.transitions, arranged_eq_self_iff, hagain⟩

end Machine

/-- An alarm with two delays of the same length, one of them written with a leading zero, and
another delay between them. -/
def MachineConfig.alarm : MachineConfig where
  root := {
    id := some "alarm"
    after := [
      ("1000", [{ actions := [.named "ring"] }]),
      ("snooze", [{ actions := [.named "ring"], guard := some (.named "asleep") }]),
      ("01000", [{ actions := [.named "blink"] }])] }
  context := .null

namespace Machine

theorem ofConfig_toConfig_alarm :
    ∃ m, ofConfig MachineConfig.alarm = .ok m ∧
      m.WellFormed ∧ m.root.key = m.root.id ∧ m.NumeralFree ∧
        ofConfig m.toConfig = .ok m.arranged ∧
        (∀ s ∈ m.root.preorder, (Transition.arrange s.id s.transitions).Perm s.transitions) ∧
        (m.arranged = m ↔
          ∀ s ∈ m.root.preorder, Transition.arrange s.id s.transitions = s.transitions) ∧
        ofConfig m.arranged.toConfig = .ok m.arranged := by
  have hok : ofConfig MachineConfig.alarm = .ok _ := (ofConfig_eq _).trans (if_pos (by decide))
  have hwf := wellFormed_of_ofConfig hok (by decide)
  have hkey := key_root_of_ofConfig hok
  have hdelay : NumeralFree ⟨(check MachineConfig.alarm).value, .null⟩ := by decide
  exact ⟨_, hok, hwf, hkey, hdelay, ofConfig_toConfig hwf hkey hdelay⟩

/-- **When a round gives back an imported machine**: exactly if the transitions of each state are in
the order of an export and no delay under which one is declared is a name that reads as a count. -/
theorem ofConfig_toConfig_eq_self_iff {c : MachineConfig} (hkeys : c.root.KeysDistinct)
    (h : ofConfig c = .ok m) :
    ofConfig m.toConfig = .ok m ↔
      ∀ s ∈ m.root.preorder, Transition.arrange s.id s.transitions = s.transitions ∧
        Transition.DelaysKept s.id s.transitions := by
  rw [ofConfig_toConfig_eq_reread (wellFormed_of_ofConfig h hkeys) (key_root_of_ofConfig h),
    Except.ok.injEq, mapTransitions_eq_self_iff]
  exact forall₂_congr fun _ _ ↦ Transition.reread_eq_self_iff

theorem ofConfig_toConfig_eq_self_iff_lamp :
    MachineConfig.lamp.root.KeysDistinct ∧
      ∃ m, ofConfig MachineConfig.lamp = .ok m ∧
        (ofConfig m.toConfig = .ok m ↔
          ∀ s ∈ m.root.preorder, Transition.arrange s.id s.transitions = s.transitions ∧
            Transition.DelaysKept s.id s.transitions) := by
  have hkeys : MachineConfig.lamp.root.KeysDistinct := by decide
  have hok : ofConfig MachineConfig.lamp = .ok _ := (ofConfig_eq _).trans (if_pos (by decide))
  exact ⟨hkeys, _, hok, ofConfig_toConfig_eq_self_iff hkeys hok⟩

/-- The two delays of the alarm are brought together, and the third one comes last. -/
theorem ofConfig_toConfig_alarm_ne :
    MachineConfig.alarm.root.KeysDistinct ∧
      ∃ m, ofConfig MachineConfig.alarm = .ok m ∧ ofConfig m.toConfig ≠ .ok m := by
  have hkeys : MachineConfig.alarm.root.KeysDistinct := by decide
  have hok : ofConfig MachineConfig.alarm = .ok _ := (ofConfig_eq _).trans (if_pos (by decide))
  refine ⟨hkeys, _, hok, ?_⟩
  rw [ofConfig_toConfig_eq_reread (wellFormed_of_ofConfig hok hkeys) (key_root_of_ofConfig hok)]
  intro hsame
  have hdelays := congrArg (fun m : Machine ↦ m.root.transitions.map (·.delay))
    (Except.ok.inj hsame)
  exact absurd hdelays (by decide +kernel)

end Machine

end Statechart
