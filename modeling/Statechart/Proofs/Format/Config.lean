import Statechart.Proofs.Format.Payload

/-!
# Reading configs back

A config is written in its long form, without what is absent or empty. The reader tries the forms of
a value in a fixed order, and the long form is read as what it was written for: a list is tried
before a single item, and a text before an object, but no object is a text.

The config of a state is read as a group of fields (`StateConfig.decode_eq`) to which the children
belong. The root of a machine shares its object with the context, which is none of its fields.
-/

namespace Statechart

open Decoding

/-! ### Transitions and invocations -/

/-- A guard is never left out by its value. -/
theorem TransitionConfig.field_guard :
    record.Field "cond" (fun d ↦ (Guard.decodeChoice d).map some)
      fun t v ↦ { t with guard := v } := by
  refine ⟨by decide, fun d t ↦ ?_⟩
  show (Guard.decodeChoice d >>= fun g ↦ .ok { t with guard := some g }) = _
  cases Guard.decodeChoice d <;> rfl

namespace Json.ReadAs

/-- A transition of a config in its long form is not taken for a target. -/
theorem transitionConfig {t : TransitionConfig} (h : t.Carries ReadsBack) :
    ReadAs TransitionConfig.decodeShort t.toJson t := by
  have hlong : ReadAs TransitionConfig.decode t.toJson t := by
    refine Record.readAs (by decide) (by decide) (by simp [TransitionConfig.record]) ?_
    simp only [List.append_assoc]
    refine .ifSome (fun t v ↦ { t with event := v })
      (fun s _ ↦ .optionalText s) ⟨by decide, fun _ _ ↦ rfl⟩ rfl ?_
    refine .ifAny (fun t v ↦ { t with targets := v })
      (.oneOrMany fun s _ ↦ .text s) id ⟨by decide, fun _ _ ↦ rfl⟩ rfl ?_
    refine .ifAny (fun t v ↦ { t with actions := v })
      (.oneOrMany fun a ha ↦ .actionShort (h.actions a ha)) id ⟨by decide, fun _ _ ↦ rfl⟩ rfl ?_
    refine .ifSome (fun t v ↦ { t with guard := v })
      (fun g hg ↦ .present (.guardChoice (h.guard g hg))) TransitionConfig.field_guard rfl ?_
    refine .ifSome (fun t v ↦ { t with delay := v })
      (fun d _ ↦ .optional (.delay d) (toJson_delay_ne_null d)) ⟨by decide, fun _ _ ↦ rfl⟩ rfl ?_
    refine .ifSome (fun t v ↦ { t with internal := v })
      (fun b _ ↦ .optionalBool b) ⟨by decide, fun _ _ ↦ rfl⟩ rfl ?_
    refine .ifSome (fun t v ↦ { t with inState := v })
      (fun s _ ↦ .optionalText s) ⟨by decide, fun _ _ ↦ rfl⟩ rfl ?_
    refine .ifSome (fun t v ↦ { t with description := v })
      (fun s _ ↦ .optionalText s) ⟨by decide, fun _ _ ↦ rfl⟩ rfl ?_
    refine .metadata (fun t v ↦ { t with metadata := v }) (metadata h.metadata)
      ⟨by decide, fun _ _ ↦ rfl⟩ rfl ?_
    exact .nil t
  exact ⟨hlong.sound, hlong.eq⟩

/-- The transitions for one trigger. -/
theorem transitionConfigs {ts : List TransitionConfig} (h : ∀ t ∈ ts, t.Carries ReadsBack) :
    ReadAs TransitionConfig.decodeList (TransitionConfig.listToJson ts) ts :=
  .oneOrMany fun t ht ↦ transitionConfig (h t ht)

/-- The transitions under all keys of a map. A key without transitions is kept. -/
theorem transitionsByKey {es : List (String × List TransitionConfig)} (hkeys : Keyed.Distinct es)
    (h : ∀ e ∈ es, ∀ t ∈ e.2, t.Carries ReadsBack) :
    ReadAs (Decoding.entries TransitionConfig.decodeList) (StateConfig.transitionsByKey es) es :=
  .entries hkeys fun e he ↦ transitionConfigs (h e he)

/-- An invocation of a config. -/
theorem invocationConfig {i : InvocationConfig} (h : i.Carries ReadsBack) :
    ReadAs InvocationConfig.decode i.toJson i := by
  refine Record.readAs (by decide) (by decide) (by simp [InvocationConfig.record, Keyed.keys]) ?_
  simp only [List.append_assoc, List.cons_append, List.nil_append]
  refine .ifSome (fun i v ↦ { i with id := v })
    (fun s _ ↦ .optionalText s) ⟨by decide, fun _ _ ↦ rfl⟩ rfl ?_
  refine .always (fun i v ↦ { i with source := v }) (.text _) ⟨by decide, fun _ _ ↦ rfl⟩ ?_
  refine .ifTrue (fun i v ↦ { i with autoForward := v }) ⟨by decide, fun _ _ ↦ rfl⟩ rfl ?_
  refine .ifAny (fun i v ↦ { i with onDone := v })
    (transitionConfigs h.onDone) id ⟨by decide, fun _ _ ↦ rfl⟩ rfl ?_
  refine .ifAny (fun i v ↦ { i with onError := v })
    (transitionConfigs h.onError) id ⟨by decide, fun _ _ ↦ rfl⟩ rfl ?_
  refine .metadata (fun i v ↦ { i with metadata := v }) (metadata h.metadata)
    ⟨by decide, fun _ _ ↦ rfl⟩ rfl ?_
  exact .nil i

end Json.ReadAs

/-! ### States -/

theorem StateType.ofWord?_word (type : StateType) : ofWord? type.word = some type := by
  cases type <;> rfl

theorem HistoryKind.ofWord?_word (kind : HistoryKind) : ofWord? kind.word = some kind := by
  cases kind <;> rfl

namespace StateConfig

mutual

/-- The config of a state, and of all below it, without the mappers of final states. -/
def withoutDoneData : StateConfig → StateConfig
  | ⟨f, states⟩ => ⟨{ f with doneData := none }, childrenWithoutDoneData states⟩

/-- The configs of the children without the mappers of final states. -/
def childrenWithoutDoneData : List (String × StateConfig) → List (String × StateConfig)
  | [] => []
  | (k, c) :: es => (k, withoutDoneData c) :: childrenWithoutDoneData es

end

theorem childrenWithoutDoneData_eq_map (es : List (String × StateConfig)) :
    childrenWithoutDoneData es = es.map fun e ↦ (e.1, e.2.withoutDoneData) := by
  induction es with
  | nil => rfl
  | cons e es ih => rw [childrenWithoutDoneData, ih, List.map_cons]

theorem childMembers_eq_map (es : List (String × StateConfig)) :
    childMembers es = es.map fun e ↦ (e.1, e.2.toJson) := by
  induction es with
  | nil => rfl
  | cons e es ih =>
    rw [childMembers, ih, List.map_cons]
    rfl

section

variable (medium : Medium)

/-- The config of a state as a group of fields. -/
def record : Record StateConfig where
  fields := fields
  required := []
  start := empty
  put name d c :=
    if name = "states" then return { c with states := ← entries (decode medium) d }
    else return ⟨← putField medium name d c.toConfigFacets, c.states⟩

/-- No field of a config is required. -/
theorem not_required {p : String → Prop} : ∀ name ∈ (record medium).required, p name :=
  fun _ h ↦ absurd h List.not_mem_nil

theorem decodeChildren_eq (kept : List (String × StateConfig)) (ms : List (Label × Document)) :
    decodeChildren medium kept ms = allEntries (decode medium) kept ms := by
  induction ms generalizing kept with
  | nil => rw [decodeChildren, allEntries]
  | cons e ms ih =>
    obtain ⟨l, d⟩ := e
    cases l with
    | fault => rw [decodeChildren, allEntries]
    | name k =>
      rw [decodeChildren, allEntries]
      simp only [ih]
      cases decode medium d <;> rfl

theorem decodeStates_eq (d : Document) : decodeStates medium d = entries (decode medium) d := by
  cases d with
  | object ms => rw [decodeStates, decodeChildren_eq, entries]
  | _ =>
    rw [decodeStates, entries]
    all_goals simp

theorem put_states {name : String} (h : name = "states") (d : Document) (c : StateConfig) :
    (record medium).put name d c = do return { c with states := ← entries (decode medium) d } :=
  if_pos h

theorem put_facet {name : String} (h : name ≠ "states") (d : Document) (c : StateConfig) :
    (record medium).put name d c = do
      return ⟨← putField medium name d c.toConfigFacets, c.states⟩ :=
  if_neg h

theorem decodeMembers_eq (seen : List String) (c : StateConfig) (ms : List (Label × Document)) :
    decodeMembers medium seen c ms = (record medium).members seen c ms := by
  induction ms generalizing seen c with
  | nil =>
    rw [decodeMembers, Record.members]
    rfl
  | cons e ms ih =>
    obtain ⟨l, d⟩ := e
    cases l with
    | fault => rw [decodeMembers, Record.members]
    | name k =>
      rw [decodeMembers, Record.members]
      simp only [ih, decodeStates_eq]
      by_cases hstates : k = "states"
      · rw [if_pos hstates, put_states medium hstates]
        cases entries (decode medium) d <;> rfl
      · rw [if_neg hstates, put_facet medium hstates]
        cases putField medium k d c.toConfigFacets <;> rfl

theorem decodePositional_eq (c : StateConfig) (names : List String) (ds : List Document) :
    decodePositional medium c names ds = (record medium).positional c names ds := by
  induction ds generalizing c names with
  | nil =>
    rw [decodePositional, Record.positional]
    exact (if_neg (by simp [record])).symm
  | cons d ds ih =>
    cases names with
    | nil => rw [decodePositional, Record.positional]
    | cons name names =>
      rw [decodePositional, Record.positional]
      simp only [ih, decodeStates_eq]
      by_cases hstates : name = "states"
      · rw [if_pos hstates, put_states medium hstates]
        cases entries (decode medium) d <;> rfl
      · rw [if_neg hstates, put_facet medium hstates]
        cases putField medium name d c.toConfigFacets <;> rfl

/-- The config of a state is read as a group of fields. -/
theorem decode_eq (d : Document) : decode medium d = (record medium).decode d := by
  cases d with
  | object ms => rw [decode, decodeMembers_eq]; rfl
  | list ds => rw [decode, decodePositional_eq]; rfl
  | _ =>
    rw [decode, Record.decode]
    all_goals simp

variable {medium}

/-- A field of the state alone leaves the children alone. -/
theorem field_facet {β : Type} {name : String} {read : Document → Decoded β}
    (set : ConfigFacets → β → ConfigFacets) (hmem : name ∈ fields) (hstates : name ≠ "states")
    (h : ∀ d f, putField medium name d f = read d >>= fun v ↦ .ok (set f v)) :
    (record medium).Field name read fun c v ↦ ⟨set c.toConfigFacets v, c.states⟩ := by
  refine ⟨hmem, fun d c ↦ ?_⟩
  rw [put_facet medium hstates, h]
  cases read d <;> rfl

theorem field_states : (record medium).Field "states" (entries (decode medium))
    fun c v ↦ { c with states := v } where
  mem := by
    show "states" ∈ fields
    decide
  put_eq _ _ := rfl

/-- The members of the config of a state are read as they were written. -/
theorem reads_members {f : ConfigFacets} (h : f.Carries Json.ReadsBack)
    {states : List (String × StateConfig)} (hkeys : Keyed.Distinct states)
    (hstates : ∀ e ∈ states, Json.ReadAs (decode medium) e.2.toJson e.2.withoutDoneData) :
    (record medium).Reads empty fields (toMembers ⟨f, states⟩)
      (withoutDoneData ⟨f, states⟩) := by
  rw [← List.append_nil (toMembers _), toMembers, members, childMembers_eq_map, withoutDoneData,
    childrenWithoutDoneData_eq_map]
  simp only [List.append_assoc]
  refine .ifSome _ (fun w _ ↦ .optionalWord w.ofWord?_word)
    (field_facet (fun f v ↦ { f with type := v }) (by decide) (by decide) fun _ _ ↦ rfl) rfl ?_
  refine .ifSome _ (fun s _ ↦ .optionalText s)
    (field_facet (fun f v ↦ { f with id := v }) (by decide) (by decide) fun _ _ ↦ rfl) rfl ?_
  refine .ifSome _ (fun s _ ↦ .optionalText s)
    (field_facet (fun f v ↦ { f with initial := v }) (by decide) (by decide) fun _ _ ↦ rfl) rfl ?_
  refine .ifAny _ (.entries_map hkeys hstates) (by simp) field_states rfl ?_
  refine .ifAny _ (.transitionsByKey h.on_distinct h.on) id
    (field_facet (fun f v ↦ { f with on := v }) (by decide) (by decide) fun _ _ ↦ rfl) rfl ?_
  refine .ifAny _ (.transitionConfigs h.always) id
    (field_facet (fun f v ↦ { f with always := v }) (by decide) (by decide) fun _ _ ↦ rfl) rfl ?_
  refine .ifAny _ (.transitionsByKey h.after_distinct h.after) id
    (field_facet (fun f v ↦ { f with after := v }) (by decide) (by decide) fun _ _ ↦ rfl) rfl ?_
  refine .ifAny _ (.transitionConfigs h.onDone) id
    (field_facet (fun f v ↦ { f with onDone := v }) (by decide) (by decide) fun _ _ ↦ rfl) rfl ?_
  refine .ifAny _ (.oneOrMany fun i hi ↦ .invocationConfig (h.invocations i hi)) id
    (field_facet (fun f v ↦ { f with invocations := v }) (by decide) (by decide) fun _ _ ↦ rfl)
    rfl ?_
  refine .ifAny _ (.oneOrMany fun a ha ↦ .actionShort (h.entry a ha)) id
    (field_facet (fun f v ↦ { f with entry := v }) (by decide) (by decide) fun _ _ ↦ rfl) rfl ?_
  refine .ifAny _ (.oneOrMany fun a ha ↦ .actionShort (h.exit a ha)) id
    (field_facet (fun f v ↦ { f with exit := v }) (by decide) (by decide) fun _ _ ↦ rfl) rfl ?_
  refine .ifAny _ (.oneOrMany fun s _ ↦ .text s) id
    (field_facet (fun f v ↦ { f with tags := v }) (by decide) (by decide) fun _ _ ↦ rfl) rfl ?_
  refine .metadata _ (Json.ReadAs.metadata h.metadata)
    (field_facet (fun f v ↦ { f with metadata := v }) (by decide) (by decide) fun _ _ ↦ rfl) rfl ?_
  refine .ifSome _ (fun s _ ↦ .optionalText s)
    (field_facet (fun f v ↦ { f with description := v }) (by decide) (by decide) fun _ _ ↦ rfl)
    rfl ?_
  refine .ifSome _ (fun w _ ↦ .optionalWord w.ofWord?_word)
    (field_facet (fun f v ↦ { f with history := v }) (by decide) (by decide) fun _ _ ↦ rfl) rfl ?_
  exact .nil _

/-- The config of a state, with all below it, is read member by member as it was written. -/
theorem reads_toMembers {c : StateConfig} (hkeys : c.KeysDistinct)
    (h : ∀ d ∈ c.preorder, d.toConfigFacets.Carries Json.ReadsBack) :
    (record medium).Reads empty fields c.toMembers c.withoutDoneData := by
  induction c using StateConfig.induction with
  | step c ih =>
    have hchildren : ∀ e ∈ c.states,
        Json.ReadAs (decode medium) e.2.toJson e.2.withoutDoneData := by
      intro e he
      have hreads := ih e he (hkeys.of_mem_states he) fun d hd ↦
        h d (mem_preorder_of_mem_states he hd)
      refine ⟨Json.sound_reread_object hreads.sound, ?_⟩
      rw [toJson, Json.reread, decode, decodeMembers_eq]
      exact hreads.members_eq (not_required medium) (by decide) (not_required medium)
    have hfacets := h c (mem_preorder_self c)
    have hstates := hkeys.states
    obtain ⟨f, states⟩ := c
    exact reads_members hfacets hstates hchildren

end

end StateConfig

/-! ### Machines -/

namespace MachineConfig

/-- The config without the mappers of final states. -/
def withoutDoneData (c : MachineConfig) : MachineConfig := ⟨c.root.withoutDoneData, c.context⟩

/-- The context is looked for behind the members of the root. -/
theorem readContext_append {ms : List (String × Json)}
    (h : ∀ e ∈ ms, e.1 ≠ "context" ∧ e.2.reread.sound = true) (found : Option Json)
    (ns : List (String × Json)) :
    readContext found (Json.rereadMembers (ms ++ ns)) =
      readContext found (Json.rereadMembers ns) := by
  induction ms with
  | nil => rfl
  | cons e ms ih =>
    obtain ⟨k, j⟩ := e
    obtain ⟨hfirst, hrest⟩ := List.forall_mem_cons.1 h
    rw [List.cons_append, Json.rereadMembers, readContext, if_neg hfirst.1, if_pos hfirst.2,
      ih hrest]

/-- A context of `null` is not written, and none is `null`. -/
theorem readContext_context {j : Json} (h : Json.ReadAs value j j) :
    readContext none (Json.rereadMembers (if j.isNull then [] else [("context", j)])) = .ok j := by
  have hfound : readContext none (Json.rereadMembers [("context", j)]) = .ok j := by
    show (value j.reread >>= fun k ↦ .ok k) = .ok j
    rw [h.eq]
    rfl
  cases j with
  | null => rfl
  | _ => exact hfound

/-- A config is read as it was written, but for the mappers. -/
theorem readAs {c : MachineConfig} (h : c.Carries Json.ReadsBack) :
    Json.ReadAs decode c.toJson c.withoutDoneData := by
  have hroot : (StateConfig.record .held).Reads .empty StateConfig.fields c.root.toMembers
      c.root.withoutDoneData := StateConfig.reads_toMembers h.keys h.states
  have hcontext : Json.ReadAs value c.context c.context := .value h.context
  have hreads : (StateConfig.record .held).Reads .empty (StateConfig.fields ++ ["context"])
      (c.root.toMembers ++ if c.context.isNull then [] else [("context", c.context)])
      c.root.withoutDoneData := by
    refine hroot.append ?_
    split
    · exact .absent _ (.nil _)
    · exact .skip (by decide) hcontext.sound (.nil _)
  have hskipped : ∀ e ∈ c.root.toMembers, e.1 ≠ "context" ∧ e.2.reread.sound = true := by
    refine fun e he ↦ ⟨fun heq ↦ ?_, hroot.sound e he⟩
    have hmem : "context" ∈ StateConfig.fields :=
      heq ▸ hroot.keys_sublist.subset (List.mem_map_of_mem he)
    exact absurd hmem (by decide)
  have hnames : (StateConfig.fields ++ ["context"] ++ []).Nodup := by decide
  have hmembers := hreads.members_eq (StateConfig.not_required _) hnames
    (StateConfig.not_required _)
  refine ⟨Json.sound_reread_object hreads.sound, ?_⟩
  rw [toJson, Json.reread, decode, readContext_append hskipped, readContext_context hcontext,
    StateConfig.decodeMembers_eq, hmembers]
  rfl

end MachineConfig

end Statechart
