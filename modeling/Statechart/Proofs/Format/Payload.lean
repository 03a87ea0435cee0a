import Statechart.Proofs.Format.Decoding
import Statechart.Proofs.WellFormed
import Statechart.Format.Reading
import Mathlib.Tactic.MkIffOfInductiveProp

/-!
# Values that are passed through

Actions and guards have parameters, states, transitions and invocations may have metadata, and a
machine has a context. These values are passed through as they are. `Machine.Carries P` and
`MachineConfig.Carries P` say that all of them satisfy `P` and can be told from what stands around
them: no parameter has the name `type`, under which the name of the action or guard is written, and
no metadata is `null`, which stands for its absence. The maps of a config have each key once.

The module ends with actions, guards and delays, which are read as they were written.
-/

namespace Statechart

/-! ### What is carried -/

/-- Parameters that satisfy `P` together. None takes the place of the name that they belong to. -/
@[mk_iff]
structure Params.Carry (P : Json → Prop) (params : List (String × Json)) : Prop where
  ne_type : ∀ e ∈ params, e.1 ≠ "type"
  object : P (.object params)

/-- Metadata that satisfies `P`. It is not `null`. -/
def Metadata.Carries (P : Json → Prop) (metadata : Option Json) : Prop :=
  ∀ j ∈ metadata, j ≠ .null ∧ P j

section

variable (P : Json → Prop)

/-- All values in a transition of a definition satisfy `P`. -/
@[mk_iff]
structure Transition.Carries (t : Transition) : Prop where
  actions : ∀ a ∈ t.actions, Params.Carry P a.params
  guard : ∀ g ∈ t.guard, Params.Carry P g.params
  metadata : Metadata.Carries P t.metadata

/-- All values in the facets of a state satisfy `P`. -/
@[mk_iff]
structure Facets.Carries (f : Facets) : Prop where
  entry : ∀ a ∈ f.entry, Params.Carry P a.params
  exit : ∀ a ∈ f.exit, Params.Carry P a.params
  invocations : ∀ i ∈ f.invocations, Metadata.Carries P i.metadata
  transitions : ∀ t ∈ f.transitions, t.Carries P
  metadata : Metadata.Carries P f.metadata

/-- All values in a machine satisfy `P`. -/
@[mk_iff]
structure Machine.Carries (m : Machine) : Prop where
  states : ∀ s ∈ m.root.preorder, s.toFacets.Carries P
  context : P m.context

/-- All values in a transition of a config satisfy `P`. -/
@[mk_iff]
structure TransitionConfig.Carries (t : TransitionConfig) : Prop where
  actions : ∀ a ∈ t.actions, Params.Carry P a.params
  guard : ∀ g ∈ t.guard, Params.Carry P g.params
  metadata : Metadata.Carries P t.metadata

/-- All values in an invocation of a config satisfy `P`. -/
@[mk_iff]
structure InvocationConfig.Carries (i : InvocationConfig) : Prop where
  onDone : ∀ t ∈ i.onDone, t.Carries P
  onError : ∀ t ∈ i.onError, t.Carries P
  metadata : Metadata.Carries P i.metadata

/-- All values in what the config of a state says of the state alone satisfy `P`, and its maps have
each key once. -/
@[mk_iff]
structure ConfigFacets.Carries (f : ConfigFacets) : Prop where
  on : ∀ e ∈ f.on, ∀ t ∈ e.2, t.Carries P
  always : ∀ t ∈ f.always, t.Carries P
  after : ∀ e ∈ f.after, ∀ t ∈ e.2, t.Carries P
  onDone : ∀ t ∈ f.onDone, t.Carries P
  invocations : ∀ i ∈ f.invocations, i.Carries P
  entry : ∀ a ∈ f.entry, Params.Carry P a.params
  exit : ∀ a ∈ f.exit, Params.Carry P a.params
  metadata : Metadata.Carries P f.metadata
  on_distinct : Keyed.Distinct f.on
  after_distinct : Keyed.Distinct f.after

/-- All values in the config of a machine satisfy `P`, and its maps have each key once. -/
@[mk_iff]
structure MachineConfig.Carries (c : MachineConfig) : Prop where
  states : ∀ d ∈ c.root.preorder, d.toConfigFacets.Carries P
  keys : c.root.KeysDistinct
  context : P c.context

end

/-- What it takes for parameters to read back: their names ascend, none of them is `type`, and their
values are exact. -/
theorem Params.carry_readsBack_iff {params : List (String × Json)} :
    Params.Carry Json.ReadsBack params ↔ (∀ e ∈ params, e.1 ≠ "type") ∧
      (Json.object params).depth < Reader.depthLimit ∧ Json.Ascending params ∧
      ∀ e ∈ params, e.2.Exact := by
  rw [carry_iff, Json.readsBack_iff, Json.exact_object_iff]

/-! ### Actions and guards -/

namespace Decoding

/-- Parameters are inserted one after the other. -/
theorem nameAndParams_some {name : String} {ms : List (Label × Document)}
    {params kept : List (String × Json)} (htype : ∀ e ∈ ms, e.1 ≠ .name "type")
    (h : Document.memberValues? ms = some params) :
    nameAndParams (some name) kept ms =
      .ok (name, params.foldl (fun sorted e ↦ Json.insertMember e.1 e.2 sorted) kept) := by
  induction ms generalizing params kept with
  | nil =>
    obtain rfl := Option.some.inj h
    rfl
  | cons e ms ih =>
    obtain ⟨l, d⟩ := e
    obtain ⟨hl, hrest⟩ := List.forall_mem_cons.1 htype
    cases l with
    | fault => cases h
    | name k =>
      obtain ⟨x, hx, hvalues⟩ := Option.bind_eq_some_iff.1 h
      obtain ⟨others, hothers, rfl⟩ := Option.map_eq_some_iff.1 hvalues
      rw [nameAndParams, if_neg fun hk ↦ hl (congrArg Label.name hk), value, hx]
      exact ih hrest hothers

/-- A name and its parameters are read as they were written. -/
theorem nameAndParams_reread {name : String} {params : List (String × Json)}
    (h : Params.Carry Json.ReadsBack params) :
    nameAndParams none [] (Json.rereadMembers (("type", .text name) :: params)) =
      .ok (name, params) := by
  obtain ⟨hne, -, hascending, hexact⟩ := Params.carry_readsBack_iff.1 h
  have htype : ∀ e ∈ Json.rereadMembers params, e.1 ≠ .name "type" := by
    rw [Json.rereadMembers_eq_map]
    exact List.forall_mem_map.2 fun e he heq ↦ hne e he (Label.name.inj heq)
  have hread : nameAndParams (some name) [] (Json.rereadMembers params) =
      .ok (name, Json.sortMembers params) :=
    nameAndParams_some htype (Json.memberValues?_rereadMembers_iff.2 hexact)
  rwa [Json.sortMembers_of_ascending hascending] at hread

end Decoding

namespace Json.ReadAs

theorem sound_named {name : String} {params : List (String × Json)}
    (h : Params.Carry ReadsBack params) :
    (reread (.object (("type", .text name) :: params))).sound = true :=
  (value h.object).sound

theorem action {a : Action} (h : Params.Carry ReadsBack a.params) :
    ReadAs Action.decode a.toJson a where
  sound := sound_named h
  eq := by
    rw [Action.toJson, reread, Action.decode, Decoding.nameAndParams_reread h]
    rfl

theorem guard {g : Guard} (h : Params.Carry ReadsBack g.params) :
    ReadAs Guard.decode g.toJson g where
  sound := sound_named h
  eq := by
    rw [Guard.toJson, reread, Guard.decode, Decoding.nameAndParams_reread h]
    rfl

/-- An action in its long form is not taken for a name. -/
theorem actionShort {a : Action} (h : Params.Carry ReadsBack a.params) :
    ReadAs Action.decodeShort a.toJson a :=
  ⟨(action h).sound, (action h).eq⟩

/-- A guard in its long form is not taken for a name. -/
theorem guardChoice {g : Guard} (h : Params.Carry ReadsBack g.params) :
    ReadAs Guard.decodeChoice g.toJson g where
  sound := sound_named h
  eq := by
    have hshort : Guard.decodeShort g.toJson.reread = .ok g := (guard h).eq
    rw [Guard.decodeChoice, if_pos (guard h).sound, hshort]

theorem toJson_delay_ne_null (d : Delay) : d.toJson ≠ .null := by
  cases d <;> simp [Delay.toJson, Json.ofNat]

/-- A count fits into a word and is read before a name is tried. -/
theorem delay (d : Delay) : ReadAs Delay.decode d.toJson d := by
  cases d with
  | named name => exact ⟨rfl, rfl⟩
  | millis ms =>
    have hlt : ms.toNat < 2 ^ 64 := ms.toNat_lt_size
    have hfits : 0 ≤ (ms.toNat : Int) ∧ (ms.toNat : Int) < (UInt64.size : Int) :=
      ⟨Int.natCast_nonneg _, Int.ofNat_lt.2 ms.toNat_lt_size⟩
    have hread : (Delay.millis ms).toJson.reread = .number (.int ms.toNat) :=
      Number.reread_int (by omega) (by omega)
    have hsound : (Document.number (.int ms.toNat)).sound = true := rfl
    refine ⟨hread ▸ hsound, ?_⟩
    rw [hread, Delay.decode, if_pos hsound]
    simp only [if_pos hfits, Int.toNat_natCast, UInt64.ofNat_toNat]

/-- Metadata is read back as it is. -/
theorem metadata {o : Option Json} (h : Metadata.Carries ReadsBack o) :
    ∀ j ∈ o, ReadAs Decoding.value j j ∧ j ≠ .null :=
  fun j hj ↦ ⟨value (h j hj).2, (h j hj).1⟩

end Json.ReadAs

end Statechart
