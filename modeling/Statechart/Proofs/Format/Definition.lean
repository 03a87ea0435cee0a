import Statechart.Proofs.Format.Payload

/-!
# Reading definitions back

A definition is written with all its fields, and those that may be absent are left out. Each type
has one lemma, which puts its members one after the other into the group of fields that reads them.

The members of a state and those of its kind stand in one object. The facets take no notice of the
members of the kind (`State.reads_members`), nor the kind of the facets (`State.filter_members`),
because no name is used by both. So the kind is read as if its members stood alone.
-/

namespace Statechart

open Decoding

namespace Json.ReadAs

/-- An invocation of a definition. -/
theorem invocation {i : Invocation} (h : Metadata.Carries ReadsBack i.metadata) :
    ReadAs Invocation.decode i.toJson i := by
  refine Record.readAs (by decide) (by decide) ?_ ?_
  · simp [Invocation.record, Keyed.keys]
  · simp only [List.append_assoc, List.cons_append, List.nil_append]
    refine .always (fun i v ↦ { i with id := v }) (.text _) ⟨by decide, fun _ _ ↦ rfl⟩ ?_
    refine .always (fun i v ↦ { i with source := v }) (.text _) ⟨by decide, fun _ _ ↦ rfl⟩ ?_
    refine .ifTrue (fun i v ↦ { i with autoForward := v }) ⟨by decide, fun _ _ ↦ rfl⟩ rfl ?_
    refine .metadata (fun i v ↦ { i with metadata := v }) (metadata h)
      ⟨by decide, fun _ _ ↦ rfl⟩ rfl ?_
    exact .nil i

/-- A transition of a definition. -/
theorem transition {t : Transition} (h : t.Carries ReadsBack) :
    ReadAs Transition.decode t.toJson t := by
  refine Record.readAs (by decide) (by decide) ?_ ?_
  · simp [Transition.record, Keyed.keys]
  · simp only [List.append_assoc, List.cons_append, List.nil_append]
    refine .always (fun t v ↦ { t with source := v }) (.text _) ⟨by decide, fun _ _ ↦ rfl⟩ ?_
    refine .always (fun t v ↦ { t with event := v }) (.text _) ⟨by decide, fun _ _ ↦ rfl⟩ ?_
    refine .always (fun t v ↦ { t with targets := v }) (.texts _) ⟨by decide, fun _ _ ↦ rfl⟩ ?_
    refine .always (fun t v ↦ { t with actions := v })
      (.list fun a ha ↦ .action (h.actions a ha)) ⟨by decide, fun _ _ ↦ rfl⟩ ?_
    refine .ifSome (fun t v ↦ { t with guard := v })
      (fun g hg ↦ .optional (.guard (h.guard g hg)) (by simp [Guard.toJson]))
      ⟨by decide, fun _ _ ↦ rfl⟩ rfl ?_
    refine .ifSome (fun t v ↦ { t with delay := v })
      (fun d _ ↦ .optional (.delay d) (toJson_delay_ne_null d)) ⟨by decide, fun _ _ ↦ rfl⟩ rfl ?_
    refine .always (fun t v ↦ { t with internal := v }) (.bool _) ⟨by decide, fun _ _ ↦ rfl⟩ ?_
    refine .ifSome (fun t v ↦ { t with inState := v })
      (fun s _ ↦ .optionalText s) ⟨by decide, fun _ _ ↦ rfl⟩ rfl ?_
    refine .ifSome (fun t v ↦ { t with description := v })
      (fun s _ ↦ .optionalText s) ⟨by decide, fun _ _ ↦ rfl⟩ rfl ?_
    refine .metadata (fun t v ↦ { t with metadata := v }) (metadata h.metadata)
      ⟨by decide, fun _ _ ↦ rfl⟩ rfl ?_
    exact .nil t

end Json.ReadAs

/-! ### States -/

namespace State

mutual

/-- The state, and all below it, without the mappers of final states. -/
def withoutDoneData : State → State
  | ⟨f, k⟩ => ⟨f, kindWithoutDoneData k⟩

/-- The kind of a state without the mappers of final states. -/
def kindWithoutDoneData : StateKind State → StateKind State
  | .compound initial states => .compound initial (allWithoutDoneData states)
  | .parallel states => .parallel (allWithoutDoneData states)
  | .final _ => .final none
  | k => k

/-- The states of the list without the mappers of final states. -/
def allWithoutDoneData : List State → List State
  | [] => []
  | s :: ss => withoutDoneData s :: allWithoutDoneData ss

end

theorem allWithoutDoneData_eq_map (ss : List State) :
    allWithoutDoneData ss = ss.map withoutDoneData := by
  induction ss with
  | nil => rfl
  | cons s ss ih => rw [allWithoutDoneData, ih, List.map_cons]

theorem toJsons_eq_map (ss : List State) : toJsons ss = ss.map toJson := by
  induction ss with
  | nil => rfl
  | cons s ss ih => rw [toJsons, ih, List.map_cons]

theorem decodeAll_eq (ds : List Document) : decodeAll ds = Decoding.all decode ds := by
  induction ds with
  | nil => rw [decodeAll, Decoding.all]
  | cons d ds ih => rw [decodeAll, ih, Decoding.all]

theorem decodeList_eq (d : Document) : decodeList d = Decoding.list decode d := by
  cases d with
  | list ds => rw [decodeList, decodeAll_eq, Decoding.list]
  | _ =>
    rw [decodeList, Decoding.list]
    all_goals simp

/-! ### The members of a kind -/

section

variable {medium : Medium} {mine : Label → Bool} {ms : List (Label × Document)}

theorem findType_filter (found : Option StateType) :
    findType medium mine found (ms.filter (mine ·.1)) = findType medium mine found ms := by
  induction ms generalizing found with
  | nil => rfl
  | cons e ms ih =>
    obtain ⟨l, d⟩ := e
    cases hl : mine l <;> simp [hl, findType, ih]

theorem findHistory_filter (found : Option HistoryKind) :
    findHistory mine found (ms.filter (mine ·.1)) = findHistory mine found ms := by
  induction ms generalizing found with
  | nil => rfl
  | cons e ms ih =>
    obtain ⟨l, d⟩ := e
    cases hl : mine l <;> simp [hl, findHistory, ih]

theorem readCompound_filter (initial : Option String) (states : Option (List State)) :
    readCompound mine initial states (ms.filter (mine ·.1)) =
      readCompound mine initial states ms := by
  induction ms generalizing initial states with
  | nil => rfl
  | cons e ms ih =>
    obtain ⟨l, d⟩ := e
    cases hl : mine l <;> simp [hl, readCompound, ih]

theorem readParallel_filter (states : Option (List State)) :
    readParallel mine states (ms.filter (mine ·.1)) = readParallel mine states ms := by
  induction ms generalizing states with
  | nil => rfl
  | cons e ms ih =>
    obtain ⟨l, d⟩ := e
    cases hl : mine l <;> simp [hl, readParallel, ih]

/-- The kind of a state is read from its own members, whatever stands between them. -/
theorem decodeKind_filter :
    decodeKind medium mine (ms.filter (mine ·.1)) = decodeKind medium mine ms := by
  rw [decodeKind, decodeKind, findType_filter, findHistory_filter, readCompound_filter,
    readParallel_filter]

end

/-! ### States as they are written -/

/-- Facets and the members of a kind are told apart by their names. -/
theorem filter_members (f : Facets) {kind : List (String × Json)}
    (hkind : ∀ e ∈ kind, e.1 ∉ facets.fields) :
    (members f kind).filter (fun e ↦ ofKind (.name e.1)) = kind := by
  have hmine : ∀ e ∈ kind, ofKind (.name e.1) = true := fun e he ↦ by
    rw [ofKind, Bool.not_eq_true', Bool.eq_false_iff]
    exact fun h ↦ hkind e he (List.contains_iff_mem.1 h)
  have hmetadata : (Printing.metadata f.metadata).filter (fun e ↦ ofKind (.name e.1)) = [] := by
    cases f.metadata <;> rfl
  have hdescription : (Printing.ifSome "description" .text f.description).filter
      (fun e ↦ ofKind (.name e.1)) = [] := by
    cases f.description <;> rfl
  rw [members]
  simp only [List.filter_append, hmetadata, hdescription, List.filter_eq_self.2 hmine,
    List.append_nil]
  exact List.append_nil kind

/-- The facets are read from among the members of a state. -/
theorem reads_members {f : Facets} (h : f.Carries Json.ReadsBack) {kind : List (String × Json)}
    (hkind : ∀ e ∈ kind, e.1 ∉ facets.fields ∧ e.2.reread.sound = true) :
    facets.Reads facets.start (["id", "key"] ++ (Keyed.keys kind ++ facets.fields.drop 2))
      (members f kind) f := by
  rw [← List.append_nil (members f kind), members]
  simp only [List.append_assoc, List.cons_append, List.nil_append]
  refine .always (fun f v ↦ { f with id := v }) (.text _) ⟨by decide, fun _ _ ↦ rfl⟩ ?_
  refine .always (fun f v ↦ { f with key := v }) (.text _) ⟨by decide, fun _ _ ↦ rfl⟩ ?_
  refine .skipAll hkind ?_
  refine .always (fun f v ↦ { f with entry := v })
    (.list fun a ha ↦ .action (h.entry a ha)) ⟨by decide, fun _ _ ↦ rfl⟩ ?_
  refine .always (fun f v ↦ { f with exit := v })
    (.list fun a ha ↦ .action (h.exit a ha)) ⟨by decide, fun _ _ ↦ rfl⟩ ?_
  refine .always (fun f v ↦ { f with invocations := v })
    (.list fun i hi ↦ .invocation (h.invocations i hi)) ⟨by decide, fun _ _ ↦ rfl⟩ ?_
  refine .always (fun f v ↦ { f with transitions := v })
    (.list fun t ht ↦ .transition (h.transitions t ht)) ⟨by decide, fun _ _ ↦ rfl⟩ ?_
  refine .always (fun f v ↦ { f with tags := v }) (.texts _) ⟨by decide, fun _ _ ↦ rfl⟩ ?_
  refine .metadata (fun f v ↦ { f with metadata := v }) (Json.ReadAs.metadata h.metadata)
    ⟨by decide, fun _ _ ↦ rfl⟩ rfl ?_
  refine .ifSome (fun f v ↦ { f with description := v })
    (fun s _ ↦ .optionalText s) ⟨by decide, fun _ _ ↦ rfl⟩ rfl ?_
  exact .nil f

/-- Where all members are sound, those that belong to the kind are skipped like any others. -/
theorem readFacets_eq {ms : List (String × Json)} (h : ∀ e ∈ ms, e.2.reread.sound = true)
    (seen : List String) (f : Facets) :
    readFacets seen f (Json.rereadMembers ms) = facets.members seen f (Json.rereadMembers ms) := by
  induction ms generalizing seen f with
  | nil => rfl
  | cons e ms ih =>
    obtain ⟨k, j⟩ := e
    obtain ⟨hfirst, hrest⟩ := List.forall_mem_cons.1 h
    rw [Json.rereadMembers, readFacets, Record.members, hfirst, if_pos rfl, j.grammatical_reread,
      if_pos rfl]
    simp only [ih hrest]

section

variable {s : State} (h : ∀ c ∈ s.children, Json.ReadAs decode c.toJson c.withoutDoneData)

include h

/-- The children of a state are read if each of them is. -/
theorem readAs_children :
    Json.ReadAs decodeList (.list (toJsons s.children)) (allWithoutDoneData s.children) := by
  rw [toJsons_eq_map, allWithoutDoneData_eq_map, funext decodeList_eq]
  exact .list_map h

theorem kindMembers_skipped :
    ∀ e ∈ kindMembers s.kind, e.1 ∉ facets.fields ∧ e.2.reread.sound = true := by
  have hchildren := (readAs_children h).sound
  obtain ⟨f, k⟩ := s
  cases k <;> simp only [kindMembers, List.forall_mem_cons]
  case atomic | final => exact ⟨⟨by decide, rfl⟩, by simp⟩
  case history => exact ⟨⟨by decide, rfl⟩, ⟨by decide, rfl⟩, by simp⟩
  case parallel => exact ⟨⟨by decide, rfl⟩, ⟨by decide, hchildren⟩, by simp⟩
  case compound => exact ⟨⟨by decide, rfl⟩, ⟨by decide, rfl⟩, ⟨by decide, hchildren⟩, by simp⟩

/-- The kind of a state is read as it was written. -/
theorem decodeKind_kindMembers :
    decodeKind .held ofKind (Json.rereadMembers (kindMembers s.kind)) =
      .ok (kindWithoutDoneData s.kind) := by
  have hchildren := (readAs_children h).eq
  have hinitial : ofKind (.name "initial") = true := rfl
  have hstates : ofKind (.name "states") = true := rfl
  obtain ⟨f, k⟩ := s
  cases k with
  | atomic =>
    rw [decodeKind]
    rfl
  | compound initial states =>
    have htype : findType .held ofKind none
        (Json.rereadMembers (kindMembers (.compound initial states))) = .ok .compound := rfl
    have hread : readCompound ofKind none none
        (Json.rereadMembers (kindMembers (.compound initial states))) =
          .ok (initial, allWithoutDoneData states) := by
      have hchildren : decodeList (Json.list (toJsons states)).reread = _ := hchildren
      simp only [kindMembers, Json.rereadMembers, readCompound, Label.name.injEq, String.reduceEq,
        hinitial, hstates, hchildren, and_true, and_false, if_true, if_false]
      rfl
    rw [decodeKind, htype]
    simp only [hread]
    rfl
  | parallel states =>
    have htype : findType .held ofKind none
        (Json.rereadMembers (kindMembers (.parallel states))) = .ok .parallel := rfl
    have hread : readParallel ofKind none (Json.rereadMembers (kindMembers (.parallel states))) =
        .ok (allWithoutDoneData states) := by
      have hchildren : decodeList (Json.list (toJsons states)).reread = _ := hchildren
      simp only [kindMembers, Json.rereadMembers, readParallel, Label.name.injEq, String.reduceEq,
        hstates, hchildren, and_true, and_false, if_true, if_false]
      rfl
    rw [decodeKind, htype]
    simp only [hread]
    rfl
  | final _ =>
    rw [decodeKind]
    rfl
  | history kind =>
    rw [decodeKind]
    cases kind <;> rfl

end

theorem names_nodup (k : StateKind State) :
    (["id", "key"] ++ (Keyed.keys (kindMembers k) ++ facets.fields.drop 2)).Nodup := by
  -- in every case the names are those of fixed members
  have hall : ∀ kind ∈ [["type"], ["type", "initial", "states"], ["type", "states"],
      ["type", "history"]], (["id", "key"] ++ (kind ++ facets.fields.drop 2)).Nodup := by decide
  cases k <;> exact hall _ (by simp [kindMembers, Keyed.keys])

/-- **A tree of states is read as it was written**, but for the mappers. -/
theorem readAs {s : State} (h : ∀ u ∈ s.preorder, u.toFacets.Carries Json.ReadsBack) :
    Json.ReadAs decode s.toJson s.withoutDoneData := by
  induction s using State.induction with
  | step s ih =>
    have hchildren : ∀ c ∈ s.children, Json.ReadAs decode c.toJson c.withoutDoneData :=
      fun c hc ↦ ih c hc fun u hu ↦ h u (mem_preorder_of_mem_children hc hu)
    have hskipped := kindMembers_skipped hchildren
    have hreads := reads_members (h s (mem_preorder_self s)) hskipped
    have hkind := decodeKind_kindMembers hchildren
    obtain ⟨f, k⟩ := s
    have hfilter : (Json.rereadMembers (members f (kindMembers k))).filter (ofKind ·.1) =
        Json.rereadMembers (kindMembers k) := by
      rw [Json.rereadMembers_eq_map, Json.rereadMembers_eq_map, List.filter_map]
      exact congrArg _ (filter_members f fun e he ↦ (hskipped e he).1)
    have hgiven : ∀ name ∈ facets.required, name ∈ Keyed.keys (members f (kindMembers k)) := by
      simp [facets, members, Keyed.keys]
    have hfacets : readFacets [] (Facets.named "" "")
        (Json.rereadMembers (members f (kindMembers k))) = .ok f := by
      rw [readFacets_eq hreads.sound]
      refine hreads.members_eq (by decide) ?_ fun name hname ↦ .inl (hgiven name hname)
      rw [List.append_nil]
      exact names_nodup k
    refine ⟨Json.sound_reread_object hreads.sound, ?_⟩
    rw [toJson, Json.reread, decode, hfacets, ← decodeKind_filter, hfilter, hkind]
    rfl

end State

/-! ### Machines -/

namespace Machine

/-- The machine without the mappers of final states. -/
def withoutDoneData (m : Machine) : Machine := ⟨m.root.withoutDoneData, m.context⟩

/-- A definition is read as it was written, but for the mappers. -/
theorem readAs {m : Machine} (h : m.Carries Json.ReadsBack) :
    Json.ReadAs decode m.toJson m.withoutDoneData := by
  refine Record.readAs (by decide) (by decide) (by simp [record, Keyed.keys]) ?_
  rw [List.cons_append]
  refine .always (fun m v ↦ { m with root := v }) (State.readAs h.states)
    ⟨by decide, fun _ _ ↦ rfl⟩ ?_
  refine .unlessNull (fun m v ↦ { m with context := v }) (.value h.context)
    ⟨by decide, fun _ _ ↦ rfl⟩ rfl ?_
  exact .nil _

end Machine

end Statechart
