import Statechart.Proofs.Import.Index

/-!
# References as ways through the tree

The index of a config answers by key paths and by ids. When the keys below each state are distinct,
looking up a key path is following its keys down from the root (`Index.id?_below`), and the path
under an id leads to the first state of this id (`Index.follow?_of_path?`).

An absolute reference is therefore one of two things (`Index.resolve?_absolute_eq_some_iff`): the id
of a state, or the longest id that ends before a point, with the keys that lead on from its state.
The second reading counts only where the first fails; `Outline.Redirects` is this case.
-/

namespace Statechart

namespace Outline

/-- The node that the keys lead to, one child after the other. -/
def follow? (o : Outline) : List String → Option Outline
  | [] => some o
  | key :: keys => (o.children.find? (·.key == key)).bind fun c ↦ c.follow? keys

theorem follow?_cons (o : Outline) (key : String) (keys : List String) :
    o.follow? (key :: keys) = (o.children.find? (·.key == key)).bind fun c ↦ c.follow? keys := rfl

/-- Following two lists of keys is following one and then the other. -/
theorem follow?_append (o : Outline) (ks ls : List String) :
    o.follow? (ks ++ ls) = (o.follow? ks).bind fun u ↦ u.follow? ls := by
  induction ks generalizing o with
  | nil => rfl
  | cons k ks ih =>
    rw [List.cons_append, follow?_cons, follow?_cons]
    cases o.children.find? (·.key == k) with
    | none => rfl
    | some c => exact ih c

/-! ### Nodes and their paths -/

mutual

/-- The nodes with their key paths, each before those below it. The outline itself is at `path`. -/
def located (path : List String) : Outline → List (List String × Outline)
  | ⟨id, key, children⟩ => (path, ⟨id, key, children⟩) :: locatedAll path children

/-- The nodes in the outlines of the list, each of which is under its key at `path`. -/
def locatedAll (path : List String) : List Outline → List (List String × Outline)
  | [] => []
  | o :: os => located (path ++ [o.key]) o ++ locatedAll path os

end

theorem located_eq_cons (path : List String) (o : Outline) :
    o.located path = (path, o) :: o.children.flatMap fun c ↦ c.located (path ++ [c.key]) := by
  have hall : ∀ os, locatedAll path os = os.flatMap fun c ↦ c.located (path ++ [c.key]) := by
    intro os
    induction os with
    | nil => rfl
    | cons o os ih => rw [locatedAll, ih, List.flatMap_cons]
  obtain ⟨id, key, children⟩ := o
  rw [located, hall]

/-- The children of each node have distinct keys. -/
inductive KeysDistinct : Outline → Prop where
  | of (o : Outline) (keys_nodup : (o.children.map (·.key)).Nodup)
      (below : ∀ c ∈ o.children, KeysDistinct c) : KeysDistinct o

section

variable {α β : Type} {key : α → String} {xs : List α} {k : String}

/-- Among items with distinct keys the first one under the key of an item is the item. -/
theorem find?_key_eq_some (h : (xs.map key).Nodup) {x : α} (hx : x ∈ xs) :
    xs.find? (key · == key x) = some x := by
  obtain ⟨before, after, rfl⟩ := List.append_of_mem hx
  refine List.find?_eq_some_iff_append.2 ⟨beq_self_eq_true _, before, after, rfl, fun y hy ↦ ?_⟩
  rw [List.map_append, List.map_cons, List.nodup_append] at h
  have hne : key y ≠ key x := h.2.2 _ (List.mem_map_of_mem hy) _ List.mem_cons_self
  simpa using hne

/-- What only an item under the key can give is given by the first such item. -/
theorem findSome?_eq_bind_find? (h : (xs.map key).Nodup) {g : α → Option β}
    (hg : ∀ x ∈ xs, key x ≠ k → g x = none) :
    xs.findSome? g = (xs.find? (key · == k)).bind g := by
  by_cases hmem : ∃ x ∈ xs, key x = k
  · obtain ⟨x, hx, rfl⟩ := hmem
    rw [find?_key_eq_some h hx, Option.bind_some]
    obtain ⟨before, after, rfl⟩ := List.append_of_mem hx
    rw [List.map_append, List.map_cons, List.nodup_append, List.nodup_cons] at h
    have hbefore : before.findSome? g = none := List.findSome?_eq_none_iff.2 fun y hy ↦
      hg y (List.mem_append_left _ hy) (h.2.2 _ (List.mem_map_of_mem hy) _ List.mem_cons_self)
    have hafter : after.findSome? g = none := List.findSome?_eq_none_iff.2 fun y hy ↦
      hg y (List.mem_append_right _ (List.mem_cons_of_mem _ hy)) fun heq ↦
        h.2.1.1 (heq ▸ List.mem_map_of_mem hy)
    rw [List.findSome?_append, hbefore, Option.none_or, List.findSome?_cons, hafter]
    cases g x <;> rfl
  · have hnone : xs.find? (key · == k) = none := List.find?_eq_none.2 fun x hx heq ↦
      hmem ⟨x, hx, beq_iff_eq.1 heq⟩
    rw [hnone, Option.bind_none]
    exact List.findSome?_eq_none_iff.2 fun x hx ↦ hg x hx fun heq ↦ hmem ⟨x, hx, heq⟩

end

/-- Each node is where the keys of its path lead. -/
theorem exists_follow?_of_mem_located {o u : Outline} (h : o.KeysDistinct) {path p : List String}
    (hu : (p, u) ∈ o.located path) : ∃ ks, p = path ++ ks ∧ o.follow? ks = some u := by
  induction h generalizing path with
  | of o hkeys _ ih =>
    rw [located_eq_cons, List.mem_cons, List.mem_flatMap] at hu
    rcases hu with heq | ⟨c, hc, hu⟩
    · obtain ⟨rfl, rfl⟩ := Prod.mk.inj heq
      exact ⟨[], (List.append_nil p).symm, rfl⟩
    · obtain ⟨ks, rfl, hfollow⟩ := ih c hc hu
      refine ⟨c.key :: ks, by rw [List.append_assoc, List.singleton_append], ?_⟩
      rw [follow?_cons, find?_key_eq_some hkeys hc, Option.bind_some, hfollow]

/-- The first node at a path is where the keys lead. -/
theorem find?_located {o : Outline} (h : o.KeysDistinct) (path ks : List String) :
    (o.located path).find? (·.1 == path ++ ks) = (o.follow? ks).map fun u ↦ (path ++ ks, u) := by
  induction h generalizing path ks with
  | of o hkeys hbelow ih =>
    rw [located_eq_cons]
    cases ks with
    | nil =>
      rw [List.find?_cons_of_pos (by simp), List.append_nil]
      rfl
    | cons k ks =>
      -- a node below another child is not at this path
      have hother : ∀ c ∈ o.children, c.key ≠ k →
          (c.located (path ++ [c.key])).find? (·.1 == path ++ k :: ks) = none := by
        intro c hc hne
        refine List.find?_eq_none.2 fun e he heq ↦ hne ?_
        obtain ⟨ls, hls, -⟩ := exists_follow?_of_mem_located (hbelow c hc) he
        rw [beq_iff_eq, hls, List.append_assoc, List.singleton_append] at heq
        exact (List.cons.inj (List.append_cancel_left heq)).1
      rw [List.find?_cons_of_neg (by simp), List.find?_flatMap, follow?_cons,
        findSome?_eq_bind_find? hkeys hother]
      cases hfind : o.children.find? (·.key == k) with
      | none => rfl
      | some c =>
        have hk := List.find?_some hfind
        rw [beq_iff_eq] at hk
        have hpath : path ++ k :: ks = (path ++ [c.key]) ++ ks := by
          rw [hk, List.append_assoc, List.singleton_append]
        rw [Option.bind_some, Option.bind_some, hpath]
        exact ih c (List.mem_of_find?_eq_some hfind) _ ks

/-- The nodes have the ids of the outline. -/
theorem map_id_located (path : List String) (o : Outline) :
    (o.located path).map (·.2.id) = o.ids := by
  refine @Outline.rec (fun o ↦ ∀ path, (o.located path).map (·.2.id) = o.ids)
    (fun os ↦ ∀ path, (locatedAll path os).map (·.2.id) = idsAll os) ?_ ?_ ?_ o path
  · intro id key children ih path
    rw [located, List.map_cons, ih, ids]
  · intro path
    rfl
  · intro o os ho hos path
    rw [locatedAll, List.map_append, ho, hos, idsAll]

/-- The first node of an id. -/
def find? (o : Outline) (id : String) : Option Outline :=
  ((o.located []).find? (·.2.id == id)).map Prod.snd

theorem mem_ids_of_find? {o u : Outline} {id : String} (h : o.find? id = some u) : id ∈ o.ids := by
  obtain ⟨e, he, rfl⟩ := Option.map_eq_some_iff.1 h
  have hid := List.find?_some he
  rw [beq_iff_eq] at hid
  rw [← map_id_located [], ← hid]
  exact List.mem_map_of_mem (List.mem_of_find?_eq_some he)

/-- The text `x` is no id, but as an absolute reference it leads to the id `y`: the longest id that
ends before a point in `x` is that of a node from which the keys after the point lead there. -/
def Redirects (o : Outline) (x y : String) : Prop :=
  x ∉ o.ids ∧
    ∃ front keys u v, x = front ++ "." ++ keys ∧
      (∀ front' keys', x = front' ++ "." ++ keys' → front' ∈ o.ids →
        front'.length ≤ front.length) ∧
      o.find? front = some u ∧ u.follow? (Text.split '.' keys) = some v ∧ v.id = y

end Outline

namespace Index

variable {id key x y : String} {c : StateConfig}

/-- The index of a config lists the nodes of its outline. -/
theorem entriesOf_eq_map_located (id key : String) (path : List String) (c : StateConfig) :
    entriesOf id path c = ((c.outline id key).located path).map fun e ↦ (e.2.id, e.1) := by
  induction c using StateConfig.induction generalizing id key path with
  | step c ih =>
    rw [entriesOf_eq_cons, StateConfig.outline_eq, Outline.located_eq_cons, List.map_cons,
      List.map_flatMap, List.flatMap_map]
    refine congrArg _ (List.flatMap_congr fun e he ↦ ?_)
    rw [ih e he _ e.1]
    rw [StateConfig.outline_eq]

theorem entries_below (id key : String) (c : StateConfig) :
    (below id c.states).entries =
      ((c.outline id key).located []).map fun e ↦ (e.2.id, e.1) := by
  rw [← entriesOf_eq_map_located]
  obtain ⟨f, states⟩ := c
  rfl

theorem isSome_path?_below (id key : String) :
    ((below id c.states).path? x).isSome ↔ x ∈ (c.outline id key).ids := by
  rw [isSome_path?_iff, ids_below id key c]

variable (h : (c.outline id key).KeysDistinct)

include h

/-- The id at a path is that of the node to which the keys lead. -/
theorem id?_below (ks : List String) :
    (below id c.states).id? ks = ((c.outline id key).follow? ks).map (·.id) := by
  have hfind := Outline.find?_located h [] ks
  rw [List.nil_append] at hfind
  rw [id?, entries_below id key c, List.find?_map]
  show Option.map _ (Option.map _ (((c.outline id key).located []).find? (·.1 == ks))) = _
  rw [hfind, Option.map_map, Option.map_map]
  rfl

/-- The path under an id leads to the first node of this id. -/
theorem follow?_of_path? {path : List String} (hpath : (below id c.states).path? x = some path) :
    ∃ u, (c.outline id key).find? x = some u ∧ (c.outline id key).follow? path = some u := by
  have hlookup : ∀ es : List (List String × Outline),
      (es.map fun e ↦ (e.2.id, e.1)).lookup x = (es.find? (·.2.id == x)).map Prod.fst := by
    intro es
    induction es with
    | nil => rfl
    | cons e es ih =>
      rw [List.map_cons, List.lookup_cons, List.find?_cons, ih, Bool.beq_comm]
      cases e.2.id == x <;> rfl
  rw [path?, entries_below id key c, hlookup] at hpath
  obtain ⟨⟨p, u⟩, hfind, rfl⟩ := Option.map_eq_some_iff.1 hpath
  obtain ⟨ks, rfl, hfollow⟩ :=
    Outline.exists_follow?_of_mem_located h (List.mem_of_find?_eq_some hfind)
  exact ⟨u, by rw [Outline.find?, hfind]; rfl, hfollow⟩

/-- A text that is no id leads to a state by keys, or nowhere. -/
theorem resolve?_absolute_of_not_mem (hx : x ∉ (c.outline id key).ids) (source : List String) :
    (below id c.states).resolve? source (Reference.absolute x) = some y ↔
      (c.outline id key).Redirects x y := by
  have hnone : (below id c.states).path? x = none := by
    rwa [← isSome_path?_below, Bool.not_eq_true, Option.isSome_eq_false_iff,
      Option.isNone_iff_eq_none] at hx
  rw [resolve?, absoluteId?_absolute]
  simp only [hnone]
  constructor
  · intro hresolve
    generalize hcut : (Text.cuts '.' x).findSome? _ = cut at hresolve
    cases cut with
    | none => cases hresolve
    | some cut =>
      obtain ⟨path, keys⟩ := cut
      obtain ⟨front, hfront, hpath, hlongest⟩ := Text.findSome?_cuts_eq_some_iff.1 hcut
      simp only [isSome_path?_below id key] at hlongest
      obtain ⟨u, hfind, hfollow⟩ := follow?_of_path? h hpath
      simp only [descend?, id?_below h, Outline.follow?_append, hfollow,
        Option.bind_some] at hresolve
      obtain ⟨v, hv, hy⟩ := Option.map_eq_some_iff.1 hresolve
      exact ⟨hx, front, keys, u, v, hfront, hlongest, hfind, hv, hy⟩
  · rintro ⟨-, front, keys, u, v, hfront, hlongest, hfind, hv, rfl⟩
    have hid : ((below id c.states).path? front).isSome :=
      (isSome_path?_below id key).2 (Outline.mem_ids_of_find? hfind)
    obtain ⟨path, hpath⟩ := Option.isSome_iff_exists.1 hid
    obtain ⟨u', hfind', hfollow⟩ := follow?_of_path? h hpath
    obtain rfl : u = u' := Option.some.inj (hfind.symm.trans hfind')
    have hbelow : ∀ front' keys', x = front' ++ String.singleton '.' ++ keys' →
        ((below id c.states).path? front').isSome → front'.length ≤ front.length :=
      fun front' keys' heq hsome ↦ hlongest front' keys' heq ((isSome_path?_below id key).1 hsome)
    have hcut := Text.findSome?_cuts_eq_some_iff.2 ⟨front, hfront, hpath, hbelow⟩
    simp only [hcut, descend?, id?_below h, Outline.follow?_append, hfollow, Option.bind_some,
      hv, Option.map_some]

/-- **What an absolute reference leads to**: the id that it names, or else the state that it leads
to by keys. Where it is written does not matter. -/
theorem resolve?_absolute_eq_some_iff (source : List String) :
    (below id c.states).resolve? source (Reference.absolute x) = some y ↔
      (x ∈ (c.outline id key).ids ∧ y = x) ∨ (c.outline id key).Redirects x y := by
  by_cases hx : x ∈ (c.outline id key).ids
  · rw [resolve?_absolute source (ids_below id key c ▸ hx), Option.some.injEq, eq_comm]
    exact ⟨fun hy ↦ .inl ⟨hx, hy⟩, fun hor ↦ hor.elim (·.2) fun hred ↦ absurd hx hred.1⟩
  · rw [resolve?_absolute_of_not_mem h hx]
    exact ⟨.inr, fun hor ↦ hor.resolve_left fun hid ↦ hx hid.1⟩

end Index

end Statechart
