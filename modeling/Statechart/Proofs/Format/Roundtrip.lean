import Statechart.Proofs.Format.Decoded
import Statechart.Proofs.Format.Definition

/-!
# Texts of machines and configs

What is written can be read: the text of a machine definition, or of a config, is read as what it
was written from, with everything in its order. Only the mappers of final states are gone, which are
never written.

The texts must not nest lists and objects 128 deep, where the reader stops. Values that are passed
through as they are must read back by themselves (`Json.readsBack_iff`), which cannot be taken for
granted of doubles. Maps have each key once, and the names of parameters ascend.
-/

namespace Statechart

open Decoding

/-! ### Definitions -/

/-- **A definition is read back from its text**, whether it is well formed or not. -/
theorem Machine.decode_print_toJson {m : Machine} (h : m.Carries Json.ReadsBack)
    (hdepth : m.toJson.depth < 128) :
    document Machine.decode m.toJson.print = .ok m.withoutDoneData := by
  rw [document_print hdepth, (readAs h).eq]

/-- A lift between two floors. It has states of all kinds, but not all its targets are there. -/
def Machine.lift : Machine where
  root := {
    Facets.named "lift" "lift" with
    transitions := [{
      Transition.of "lift" "CALL" with
      targets := ["upper", "roof"]
      actions := [⟨"ring", [("times", .ofInt 2)]⟩]
      guard := some ⟨"below", [("floor", .ofInt 3), ("load", .list [.bool true, .null])]⟩
      metadata := some (.text "shaft") }]
    kind := .compound "cabin" [
      { Facets.named "cabin" "cabin" with
        transitions := [
          { Transition.of "cabin" "after(250)" with delay := some (.millis 250) },
          { Transition.of "cabin" "after(rest)" with delay := some (.named "rest") }]
        invocations := [{ Invocation.of "motor" "drive" with autoForward := true }]
        kind := .parallel [.of "doors" "doors" .atomic, .of "last" "last" (.history .deep)] },
      .of "stuck" "stuck" (.final (some (.constant 0 .null)))] }
  context := .object [("floor", .ofInt (-1))]

theorem Machine.decode_print_toJson_lift :
    lift.Carries Json.ReadsBack ∧ lift.toJson.depth < 128 ∧
      document decode lift.toJson.print = .ok lift.withoutDoneData := by
  have hring : Params.Carry Json.ReadsBack [("times", .ofInt 2)] :=
    Params.carry_readsBack_iff.2 ⟨by decide, by decide, by decide, by simp [Json.exact_ofInt]⟩
  have hbelow : Params.Carry Json.ReadsBack
      [("floor", .ofInt 3), ("load", .list [.bool true, .null])] :=
    Params.carry_readsBack_iff.2
      ⟨by decide, by decide, by decide, by simp [Json.exact_ofInt, Json.exact_list_iff]⟩
  have hshaft : (Json.text "shaft").ReadsBack := Json.readsBack_iff.2 ⟨by decide, by simp⟩
  have hcontext : (Json.object [("floor", .ofInt (-1))]).ReadsBack := by
    refine Json.readsBack_iff.2 ⟨by decide, Json.exact_object_iff.2 ⟨by decide, ?_⟩⟩
    simp [Json.exact_ofInt]
  have hcarries : lift.Carries Json.ReadsBack := by
    refine ⟨?_, hcontext⟩
    simp [lift, State.preorder, State.preorderKind, State.preorderAll, State.of, Facets.named,
      Transition.of, Invocation.of, Facets.carries_iff, Transition.carries_iff, Metadata.Carries,
      hring, hbelow, hshaft]
  have hdepth : lift.toJson.depth < 128 := by decide
  exact ⟨hcarries, hdepth, decode_print_toJson hcarries hdepth⟩

/-! ### Configs -/

/-- **A config is read back from its text**, and whatever text a config is read from, its metadata
and its parameters can be written and its maps have each key once. -/
theorem MachineConfig.decode_and_decode_print :
    (∀ text c, document MachineConfig.decode text = .ok c → c.Carries Json.Any) ∧
      ∀ c : MachineConfig, c.Carries Json.ReadsBack → c.toJson.depth < 128 →
        document MachineConfig.decode c.toJson.print = .ok c.withoutDoneData := by
  refine ⟨fun text c h ↦ ?_, fun c h hdepth ↦ ?_⟩
  · obtain ⟨d, hd⟩ := exists_of_document h
    exact carries_of_decode hd
  · rw [document_print hdepth, (readAs h).eq]

/-- A turnstile that takes coins and closes by itself. -/
def MachineConfig.turnstile : MachineConfig where
  root := {
    id := some "turnstile"
    initial := some "locked"
    states := [
      ("locked", { on := [("COIN", [{
        targets := ["open"]
        actions := [⟨"ring", [("times", .ofInt 2)]⟩]
        guard := some (.named "valid")
        metadata := some (.text "till") }])] }),
      ("open", { after := [("500", [.to ["locked"]])], entry := [.named "click"] }),
      ("broken", { type := some .final, doneData := some (.constant 0 .null) })] }
  context := .object [("coins", .ofInt 0)]

theorem MachineConfig.decode_and_decode_print_turnstile :
    turnstile.Carries Json.ReadsBack ∧ turnstile.toJson.depth < 128 ∧
      document decode turnstile.toJson.print = .ok turnstile.withoutDoneData ∧
      turnstile.withoutDoneData.Carries Json.Any := by
  have hring : Params.Carry Json.ReadsBack [("times", .ofInt 2)] :=
    Params.carry_readsBack_iff.2 ⟨by decide, by decide, by decide, by simp [Json.exact_ofInt]⟩
  have hnone : Params.Carry Json.ReadsBack [] :=
    Params.carry_readsBack_iff.2 ⟨by decide, by decide, by decide, by simp⟩
  have htill : (Json.text "till").ReadsBack := Json.readsBack_iff.2 ⟨by decide, by simp⟩
  have hcontext : (Json.object [("coins", .ofInt 0)]).ReadsBack := by
    refine Json.readsBack_iff.2 ⟨by decide, Json.exact_object_iff.2 ⟨by decide, ?_⟩⟩
    simp [Json.exact_ofInt]
  have hcarries : turnstile.Carries Json.ReadsBack := by
    refine ⟨?_, by decide, hcontext⟩
    simp [turnstile, StateConfig.preorder, StateConfig.preorderAll, TransitionConfig.to,
      Action.named, Guard.named, ConfigFacets.carries_iff, TransitionConfig.carries_iff,
      Metadata.Carries, Keyed.Distinct, hring, hnone, htill]
  have hdepth : turnstile.toJson.depth < 128 := by decide
  have hread : document decode turnstile.toJson.print = .ok turnstile.withoutDoneData :=
    decode_and_decode_print.2 _ hcarries hdepth
  exact ⟨hcarries, hdepth, hread, decode_and_decode_print.1 _ _ hread⟩

end Statechart
