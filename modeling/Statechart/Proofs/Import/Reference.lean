import Statechart.Proofs.Import.Navigation
import Statechart.Proofs.WellFormed

/-!
# What a reference leads to

An import resolves references by looking up texts and key paths in an index and by cutting texts at
points. It never goes through the tree. `Outline.LeadsTo` says what a reference means in terms of
the tree alone: where it starts, and which keys lead on from there, one child at a time. The two
agree for every reference and wherever it is written (`Index.resolve?_eq_some_iff_leadsTo`).

The keys of a reference are given by what they are, not by how they are cut out: no key has a point
in it, and with points between them they make up the text (`Text.Stretches`). So an empty text is
one key, which is empty, and a point at the end of a text is followed by an empty key.
-/

namespace Statechart

namespace Outline

/-- The keys in `keys`, which have points between them, lead from `o` to `v`. -/
def Descends (o : Outline) (keys : String) (v : Outline) : Prop :=
  ∃ ks, Text.Stretches '.' keys ks ∧ o.follow? ks = some v

/-- The reference leads to a state of the given id, when it is written on the state at the key path
`source`. -/
inductive LeadsTo (o : Outline) (source : List String) : String → String → Prop where
  /-- `#id` is the state of this id. -/
  | named {x : String} (mem : x ∈ o.ids) : LeadsTo o source ("#" ++ x) x
  /-- What is no id as a whole starts with one: the longest that ends before a point. It is the
  first state of this id from which the keys after the point lead on. -/
  | below {x front keys : String} {u v : Outline} (not_mem : x ∉ o.ids)
      (cut : x = front ++ "." ++ keys)
      (longest : ∀ front' keys', x = front' ++ "." ++ keys' → front' ∈ o.ids →
        front'.length ≤ front.length)
      (first : o.find? front = some u) (descends : u.Descends keys v) :
      LeadsTo o source ("#" ++ x) v.id
  /-- `.key` starts at the state that it is written on. -/
  | inside {keys : String} {u v : Outline} (start : o.follow? source = some u)
      (descends : u.Descends keys v) : LeadsTo o source ("." ++ keys) v.id
  /-- `key` starts at the parent of this state, so it leads nowhere from the root. -/
  | beside {keys key : String} {path : List String} {u v : Outline}
      (plain : ∀ rest, keys ≠ "#" ++ rest ∧ keys ≠ "." ++ rest)
      (parent : source = path ++ [key]) (start : o.follow? path = some u)
      (descends : u.Descends keys v) : LeadsTo o source keys v.id

variable {o u v : Outline} {source : List String} {keys x y : String}

theorem descends_iff : o.Descends keys v ↔ o.follow? (Text.split '.' keys) = some v := by
  simp only [Descends, ← Text.split_eq_iff, exists_eq_left']

/-! ### The three forms of references -/

theorem leadsTo_absolute_iff :
    o.LeadsTo source (Reference.absolute x) y ↔ (x ∈ o.ids ∧ y = x) ∨ o.Redirects x y := by
  constructor
  · intro h
    generalize href : Reference.absolute x = reference at h
    cases h with
    | named mem =>
      obtain rfl := (String.append_right_inj "#").1 href
      exact .inl ⟨mem, rfl⟩
    | below not_mem cut longest first descends =>
      obtain rfl := (String.append_right_inj "#").1 href
      exact .inr ⟨not_mem, _, _, _, _, cut, longest, first, descends_iff.1 descends, rfl⟩
    | inside => exact absurd href (Index.absolute_ne_relative x _)
    | beside plain => exact absurd href.symm (plain x).1
  · rintro (⟨hx, rfl⟩ | ⟨hx, front, keys, u, v, hcut, hlongest, hfirst, hfollow, rfl⟩)
    · exact .named hx
    · exact .below hx hcut hlongest hfirst (descends_iff.2 hfollow)

theorem leadsTo_relative_iff :
    o.LeadsTo source ("." ++ keys) y ↔
      ∃ u v, o.follow? source = some u ∧ u.Descends keys v ∧ v.id = y := by
  constructor
  · intro h
    generalize href : "." ++ keys = reference at h
    cases h with
    | named | below => exact absurd href.symm (Index.absolute_ne_relative _ keys)
    | inside start descends =>
      obtain rfl := (String.append_right_inj ".").1 href
      exact ⟨_, _, start, descends, rfl⟩
    | beside plain => exact absurd href.symm (plain keys).2
  · rintro ⟨u, v, hstart, hdescends, rfl⟩
    exact .inside hstart hdescends

theorem leadsTo_plain_iff (h : ∀ rest, keys ≠ "#" ++ rest ∧ keys ≠ "." ++ rest) :
    o.LeadsTo source keys y ↔
      ∃ path key u v, source = path ++ [key] ∧ o.follow? path = some u ∧ u.Descends keys v ∧
        v.id = y := by
  constructor
  · intro hleads
    cases hleads with
    | named | below => exact absurd rfl (h _).1
    | inside => exact absurd rfl (h _).2
    | beside _ parent start descends => exact ⟨_, _, _, _, parent, start, descends, rfl⟩
  · rintro ⟨path, key, u, v, hparent, hstart, hdescends, rfl⟩
    exact .beside h hparent hstart hdescends

end Outline

/-- A config whose maps have each key once has an outline with distinct keys. -/
theorem StateConfig.KeysDistinct.outline {c : StateConfig} (h : c.KeysDistinct) (id key : String) :
    (c.outline id key).KeysDistinct := by
  induction c using StateConfig.induction generalizing id key with
  | step c ih =>
    have hkeys : (c.states.map fun e ↦ e.2.outline (Index.childId id e.1 e.2) e.1).map (·.key) =
        Keyed.keys c.states := by
      rw [List.map_map]
      exact List.map_congr_left fun e _ ↦ by rw [Function.comp_apply, StateConfig.outline_eq]
    rw [StateConfig.outline_eq]
    refine .of _ ?_ (List.forall_mem_map.2 fun e he ↦ ih e he (h.of_mem_states he) _ _)
    exact hkeys ▸ h.states

namespace Index

variable {id key : String} {c : StateConfig}

/-- A key path followed by more keys is looked up by going on from the state at the path. -/
theorem descend?_eq_some_iff (h : (c.outline id key).KeysDistinct) {path : List String}
    {keys y : String} :
    (below id c.states).descend? path keys = some y ↔
      ∃ u v, (c.outline id key).follow? path = some u ∧ u.Descends keys v ∧ v.id = y := by
  rw [descend?, id?_below h, Outline.follow?_append, Option.map_eq_some_iff]
  simp only [Option.bind_eq_some_iff, Outline.descends_iff]
  constructor
  · rintro ⟨v, ⟨u, hu, hv⟩, hy⟩
    exact ⟨u, v, hu, hv, hy⟩
  · rintro ⟨u, v, hu, hv, hy⟩
    exact ⟨v, ⟨u, hu, hv⟩, hy⟩

/-- The start of a reference without a mark at its front is found by taking the last key off the
path. -/
theorem resolve?_plain_eq_some_iff (h : (c.outline id key).KeysDistinct) {source : List String}
    {keys y : String} (habsolute : Reference.absoluteId? keys = none)
    (hrelative : Reference.relative? keys = none) :
    (below id c.states).resolve? source keys = some y ↔
      ∃ path last u v, source = path ++ [last] ∧ (c.outline id key).follow? path = some u ∧
        u.Descends keys v ∧ v.id = y := by
  rw [resolve?, habsolute, hrelative]
  rcases List.eq_nil_or_concat source with rfl | ⟨path, last, rfl⟩
  · refine iff_of_false (fun hsome ↦ Option.some_ne_none y hsome.symm) ?_
    rintro ⟨path, last, -, -, hsource, -⟩
    exact List.append_ne_nil_of_right_ne_nil path (List.cons_ne_nil last []) hsource.symm
  · have hne : (path ++ [last]).isEmpty = false :=
      List.isEmpty_eq_false_iff.2 (List.append_ne_nil_of_right_ne_nil path (List.cons_ne_nil _ _))
    rw [List.concat_eq_append]
    simp only [hne, Bool.false_eq_true, if_false, List.dropLast_concat]
    rw [descend?_eq_some_iff h]
    constructor
    · rintro ⟨u, v, hu, hv⟩
      exact ⟨path, last, u, v, rfl, hu, hv⟩
    · rintro ⟨path', last', u, v, hsource, hu, hv⟩
      obtain ⟨rfl, -⟩ := List.append_inj' hsource rfl
      exact ⟨u, v, hu, hv⟩

/-- **Resolving a reference is going through the tree.** In the index of a config whose maps have
each key once, a reference that is written on the state at a key path resolves to the id of the
state to which it leads, and to nothing if it leads nowhere. -/
theorem resolve?_eq_some_iff_leadsTo (id key : String) {c : StateConfig} (hkeys : c.KeysDistinct)
    (source : List String) (reference target : String) :
    (below id c.states).resolve? source reference = some target ↔
      (c.outline id key).LeadsTo source reference target := by
  have houtline : (c.outline id key).KeysDistinct := hkeys.outline id key
  cases habsolute : Reference.absoluteId? reference with
  | some x =>
    obtain rfl : reference = Reference.absolute x := Text.after?_eq_some_iff.1 habsolute
    rw [resolve?_absolute_eq_some_iff houtline, Outline.leadsTo_absolute_iff]
  | none =>
    cases hrelative : Reference.relative? reference with
    | some keys =>
      obtain rfl : reference = "." ++ keys := Text.after?_eq_some_iff.1 hrelative
      rw [resolve?, habsolute, hrelative, Outline.leadsTo_relative_iff,
        ← descend?_eq_some_iff houtline]
    | none =>
      have hplain : ∀ rest, reference ≠ "#" ++ rest ∧ reference ≠ "." ++ rest := fun rest ↦
        ⟨fun h ↦ Option.some_ne_none rest
            ((Text.after?_eq_some_iff.2 h).symm.trans habsolute),
          fun h ↦ Option.some_ne_none rest
            ((Text.after?_eq_some_iff.2 h).symm.trans hrelative)⟩
      rw [resolve?_plain_eq_some_iff houtline habsolute hrelative,
        Outline.leadsTo_plain_iff hplain]

end Index

/-- A harbour in which two states have the same id. Below the first of them is a state with an id of
its own, and one key is empty. -/
def StateConfig.harbour : StateConfig where
  states := [
    ("quay", { id := some "harbour.1", states := [("c", { id := some "crane" }), ("", {})] }),
    ("1", { states := [("pier", { states := [("end", {})] })] })]

theorem Index.resolve?_eq_some_iff_leadsTo_harbour :
    StateConfig.harbour.KeysDistinct ∧
      let o := StateConfig.harbour.outline "harbour" "harbour"
      o.ids = ["harbour", "harbour.1", "crane", "harbour.1.", "harbour.1", "harbour.1.pier",
          "harbour.1.pier.end"] ∧
        o.LeadsTo [] "#harbour.1" "harbour.1" ∧ o.LeadsTo [] "#harbour.1.c" "crane" ∧
        o.LeadsTo ["quay"] ".c" "crane" ∧ o.LeadsTo ["quay"] "." "harbour.1." ∧
        o.LeadsTo ["1"] "quay.c" "crane" ∧
        (∀ target, ¬ o.LeadsTo [] "quay" target) ∧
        ∀ target, ¬ o.LeadsTo ["quay"] "#harbour.1.pier.stairs" target := by
  have hkeys : StateConfig.harbour.KeysDistinct := by decide
  have hleads := resolve?_eq_some_iff_leadsTo "harbour" "harbour" hkeys
  have hroot : (below "harbour" StateConfig.harbour.states).resolve? [] "quay" = none := by decide
  have hstairs : (below "harbour" StateConfig.harbour.states).resolve? ["quay"]
      "#harbour.1.pier.stairs" = none := by decide
  exact ⟨hkeys, by decide, (hleads _ _ _).1 (by decide), (hleads _ _ _).1 (by decide),
    (hleads _ _ _).1 (by decide), (hleads _ _ _).1 (by decide), (hleads _ _ _).1 (by decide),
    fun target h ↦ Option.some_ne_none target (((hleads _ _ _).2 h).symm.trans hroot),
    fun target h ↦ Option.some_ne_none target (((hleads _ _ _).2 h).symm.trans hstairs)⟩

end Statechart
