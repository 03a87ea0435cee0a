import Statechart.Proofs.Tree

/-!
# The ids in an index

The index of a config lists the ids of its outline (`Index.ids_below`), so the ids by which targets
are resolved are those that the states of the finished tree get. Whatever a reference resolves to
is one of them (`Index.mem_ids_of_resolve?`), and the absolute reference to one of them resolves to
it (`Index.resolve?_absolute`), whatever points and number signs the id has in it.
-/

namespace Statechart

namespace Index

/-- The ids of the states in an index, in the order of their entries. -/
def ids (ix : Index) : List String := ix.entries.map Prod.fst

/-! ### The entries of a config -/

theorem entriesBelow_eq_flatMap (parent : String) (path : List String)
    (es : List (String × StateConfig)) :
    entriesBelow parent path es =
      es.flatMap fun e ↦ entriesOf (childId parent e.1 e.2) (path ++ [e.1]) e.2 := by
  induction es with
  | nil => rfl
  | cons e es ih => rw [entriesBelow, ih, List.flatMap_cons]

theorem entriesOf_eq_cons (id : String) (path : List String) (c : StateConfig) :
    entriesOf id path c =
      (id, path) ::
        c.states.flatMap fun e ↦ entriesOf (childId id e.1 e.2) (path ++ [e.1]) e.2 := by
  obtain ⟨f, states⟩ := c
  rw [entriesOf, entriesBelow_eq_flatMap]

theorem map_fst_entriesOf (id key : String) (path : List String) (c : StateConfig) :
    (entriesOf id path c).map Prod.fst = (c.outline id key).ids := by
  induction c using StateConfig.induction generalizing id key path with
  | step c ih =>
    rw [entriesOf_eq_cons, StateConfig.outline_eq, Outline.ids_mk, List.map_cons, List.map_flatMap,
      List.flatMap_map]
    exact congrArg _ (List.flatMap_congr fun e he ↦ ih e he _ _ _)

/-- The index of a config has the ids of its outline. -/
theorem ids_below (id key : String) (c : StateConfig) :
    (below id c.states).ids = (c.outline id key).ids := by
  rw [← map_fst_entriesOf id key [] c]
  obtain ⟨f, states⟩ := c
  rfl

/-! ### Resolving -/

variable {ix : Index} {id : String}

theorem isSome_path?_iff : (ix.path? id).isSome ↔ id ∈ ix.ids := by
  rw [path?, List.lookup_isSome_iff, ids, List.mem_map]
  exact ⟨fun ⟨e, he, h⟩ ↦ ⟨e, he, (beq_iff_eq.1 h).symm⟩,
    fun ⟨e, he, h⟩ ↦ ⟨e, he, beq_iff_eq.2 h.symm⟩⟩

theorem mem_ids_of_id? {path : List String} (h : ix.id? path = some id) : id ∈ ix.ids := by
  obtain ⟨e, he, rfl⟩ := Option.map_eq_some_iff.1 h
  exact List.mem_map_of_mem (List.mem_of_find?_eq_some he)

/-- A reference resolves to the id of a state in the index, or to nothing. -/
theorem mem_ids_of_resolve? {source : List String} {reference : String}
    (h : ix.resolve? source reference = some id) : id ∈ ix.ids := by
  rw [resolve?] at h
  split at h
  · next name _ =>
    split at h
    · next _ hpath =>
      rw [← Option.some.inj h, ← isSome_path?_iff, hpath]
      rfl
    · split at h
      · exact mem_ids_of_id? h
      · exact absurd h (by simp)
  · split at h
    · exact mem_ids_of_id? h
    · split at h
      · exact absurd h (by simp)
      · exact mem_ids_of_id? h

/-- An absolute reference does not start at the state that it is written on. -/
theorem absolute_ne_relative (x keys : String) : Reference.absolute x ≠ "." ++ keys := by
  intro h
  have hhead := congrArg (fun s : String ↦ s.toList.head?) h
  simp only [Reference.absolute, String.toList_append] at hhead
  cases hhead

theorem absoluteId?_absolute (id : String) :
    Reference.absoluteId? (Reference.absolute id) = some id :=
  Text.after?_eq_some_iff.2 rfl

/-- An id is found as a whole before any part of it is taken for an id. -/
theorem resolve?_absolute (source : List String) (h : id ∈ ix.ids) :
    ix.resolve? source (Reference.absolute id) = some id := by
  obtain ⟨path, hpath⟩ := Option.isSome_iff_exists.1 (isSome_path?_iff.2 h)
  rw [resolve?, absoluteId?_absolute]
  simp only [hpath]

/-- It does not matter where an absolute reference is written. -/
theorem resolve?_absolute_source (source : List String) (x : String) :
    ix.resolve? source (Reference.absolute x) = ix.resolve? [] (Reference.absolute x) := by
  simp only [resolve?, absoluteId?_absolute]

/-! ### Repeated ids -/

/-- The ids that stand further up in the list as well, once for each place where they stand
again. -/
def repeats (ids : List String) : List String :=
  (ids.zipIdx.filter fun (id, n) ↦ (ids.take n).contains id).map Prod.fst

/-- Going down the list with the ids seen so far finds the places where an id stands again. -/
theorem repeated_eq_filter (before seen ids : List String) (h : ∀ id, id ∈ seen ↔ id ∈ before) :
    repeated seen ids =
      ((ids.zipIdx before.length).filter fun (id, n) ↦ ((before ++ ids).take n).contains id).map
        Prod.fst := by
  induction ids generalizing before seen with
  | nil => rfl
  | cons id ids ih =>
    -- the prefix `before` grows by the first id, and what has been seen with it
    have hseen : seen.contains id = before.contains id := by
      rw [Bool.eq_iff_iff, List.contains_iff_mem, List.contains_iff_mem, h]
    have hlater : ∀ seen', (∀ x, x ∈ seen' ↔ x ∈ before ++ [id]) →
        repeated seen' ids = ((ids.zipIdx (before.length + 1)).filter fun (x, n) ↦
          ((before ++ id :: ids).take n).contains x).map Prod.fst := by
      intro seen' h'
      rw [ih (before ++ [id]) seen' h', List.append_assoc, List.length_append]
      rfl
    rw [repeated, hseen, List.zipIdx_cons, List.filter_cons]
    simp only [List.take_left]
    by_cases hid : id ∈ before
    · rw [List.contains_iff_mem.2 hid, if_pos rfl, if_pos rfl, List.map_cons,
        hlater seen fun x ↦ ?_]
      rw [h, List.mem_append, List.mem_singleton]
      exact ⟨.inl, fun hx ↦ hx.elim (fun hx ↦ hx) fun hx ↦ hx ▸ hid⟩
    · rw [if_neg (mt List.contains_iff_mem.1 hid), if_neg (mt List.contains_iff_mem.1 hid),
        hlater (id :: seen) fun x ↦ ?_]
      rw [List.mem_cons, h, List.mem_append, List.mem_singleton, or_comm]

theorem repeated_nil (ids : List String) : repeated [] ids = repeats ids :=
  repeated_eq_filter [] [] ids fun _ ↦ Iff.rfl

theorem duplicates_eq_repeats (ix : Index) : ix.duplicates = repeats ix.ids :=
  repeated_nil ix.ids

/-- No id is repeated exactly if the ids are distinct. -/
theorem repeats_eq_nil_iff {ids : List String} : repeats ids = [] ↔ ids.Nodup := by
  have h : ∀ seen ids : List String,
      repeated seen ids = [] ↔ ids.Nodup ∧ ∀ id ∈ ids, id ∉ seen := by
    intro seen ids
    induction ids generalizing seen with
    | nil => simp [repeated]
    | cons id ids ih =>
      rw [repeated]
      by_cases hid : id ∈ seen
      · rw [if_pos (List.contains_iff_mem.2 hid)]
        simp [hid]
      · rw [if_neg (mt List.contains_iff_mem.1 hid), ih, List.nodup_cons]
        constructor
        · rintro ⟨hnodup, hnew⟩
          refine ⟨⟨fun hmem ↦ hnew id hmem List.mem_cons_self, hnodup⟩, ?_⟩
          rintro x (- | ⟨_, hx⟩)
          · exact hid
          · exact fun hs ↦ hnew x hx (List.mem_cons_of_mem _ hs)
        · rintro ⟨⟨hfirst, hnodup⟩, hnew⟩
          refine ⟨hnodup, fun x hx hs ↦ ?_⟩
          rcases List.mem_cons.1 hs with rfl | hs
          · exact hfirst hx
          · exact hnew x (List.mem_cons_of_mem _ hx) hs
  rw [← repeated_nil, h]
  simp

end Index

end Statechart
