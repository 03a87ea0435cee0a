import Statechart.Proofs.Import.Navigation
import Statechart.Proofs.Revision.Regular

/-!
# Declared children among those that were there

The children of a revised state are put together from two lists while the recursion runs: each
original child is revised, whether or not a declared one takes its place afterwards, and what is
left of the declared ones comes at the end. `State.Merges` says what comes out of this for one
state, and `Machine.merges_revise` that it comes out at every position which no declared child has
taken over.
-/

namespace Statechart

variable {σ : Type} {mapper : Mapper σ} {allowed : Edit → Prop}

/-- What is made of a state, and of all below it, from the call for it on. -/
def Call.revise (mapper : Mapper σ) (c : Call σ) (s : State) : State :=
  (s.revise mapper c.path c.data).1

/-- **How a state gets its children.** `t` is the revised state that comes from `s`, if the mapper
answers `p` for `s` and makes `revised i c` of its child `c` of the number `i`. -/
structure State.Merges (p : PendingState) (revised : Nat → State → State) (s t : State) : Prop where
  id_eq : t.id = s.id
  key_eq : t.key = s.key
  keys_nodup : (t.children.map (·.key)).Nodup
  /-- The keys stay in their order, and the new ones follow in the order of their declaration. -/
  keys_eq : s.type ≠ .final → s.type ≠ .history →
    t.children.map (·.key) =
      s.children.map (·.key) ++
        (Keyed.keys (p.declared.getD [])).filter (· ∉ s.children.map (·.key))
  /-- Under each declared key is the child that is built for it. -/
  child?_declared : s.type ≠ .final → s.type ≠ .history →
    ∀ key ∈ Keyed.keys (p.declared.getD []),
      ∃ c ∈ Import.declared s.id (p.declared.getD []), c.key = key ∧ t.child? key = some c
  /-- Every other child is what is made of the one that was there. -/
  kept : ∀ (i : Nat) (c : State), s.children[i]? = some c →
    c.key ∉ Keyed.keys (p.declared.getD []) → t.children[i]? = some (revised i c)
  /-- An atomic state that gets children becomes compound. -/
  promoted : s.type = .atomic → ∀ first rest, t.children = first :: rest →
    t.kind = .compound (p.initial.getD first.key) t.children
  /-- Otherwise the state stays of its type. -/
  type_eq : (s.type = .atomic → t.children = []) → t.type = s.type
  /-- A leaf of another kind drops what is declared for it. -/
  leaf : s.type = .final ∨ s.type = .history → t.children = []

/-- Neither the state at the position nor one above it gives way to a declared child. -/
def Machine.Keeps (m : Machine) (mapper : Mapper σ) (data : σ) (a : List Nat) : Prop :=
  ∀ i < a.length, ∀ c ∈ m.root.at? (a.take (i + 1)),
    c.key ∉ Keyed.keys ((m.callAt mapper data (a.take i)).declared mapper)

instance (m : Machine) (mapper : Mapper σ) (data : σ) (a : List Nat) :
    Decidable (m.Keeps mapper data a) :=
  inferInstanceAs (Decidable (∀ i < a.length, ∀ c ∈ m.root.at? (a.take (i + 1)),
    c.key ∉ Keyed.keys ((m.callAt mapper data (a.take i)).declared mapper)))

namespace State

variable (path : List State) (data : σ)

/-- The declared children are those that the import builds, under their keys. -/
theorem declaredChildren_answer (hmapper : mapper.Edits allowed) (s : State) :
    declaredChildren (mapper data (.of s) path).1.settle =
      (Import.declared s.id ((mapper data (.of s) path).1.declared.getD [])).map
        fun c ↦ (c.key, c) := by
  have hid : (mapper data (.of s) path).1.settle.state.id = s.id := by
    rw [PendingState.id_settle, hmapper.base_eq]
    rfl
  rw [declaredChildren, hid, PendingState.settle]
  cases (mapper data (.of s) path).1.declared with
  | none => rfl
  | some states => rfl

/-- A leaf of another kind than atomic has no children, whatever is declared for it. -/
theorem children_revise_of_leaf (hmapper : mapper.Edits allowed) {s : State}
    (hleaf : s.type = .final ∨ s.type = .history) :
    (s.revise mapper path data).1.children = [] := by
  rw [← type_settle_answer path data hmapper] at hleaf
  rw [revise_eq]
  simp only [rejoin]
  rw [attach_eq_self hleaf, children_settle_answer path data hmapper]

/-- A state that can have children has the keys that it had, and then the other declared ones. -/
theorem map_key_children_revise (hmapper : mapper.Edits allowed) {s : State}
    (hleaf : ¬ (s.type = .final ∨ s.type = .history)) :
    (s.revise mapper path data).1.children.map (·.key) =
      s.children.map (·.key) ++
        (Keyed.keys ((mapper data (.of s) path).1.declared.getD [])).filter
          (· ∉ s.children.map (·.key)) := by
  have hrevised := map_key_reviseEach (pathBelow mapper path data s) (dataBelow mapper path data s)
    hmapper s.children
  have hdeclared : Keyed.keys (declaredChildren (mapper data (.of s) path).1.settle) =
      Keyed.keys ((mapper data (.of s) path).1.declared.getD []) := by
    rw [declaredChildren_answer path data hmapper, keys_map_key, Import.map_key_declared]
  rw [children_revise path data hmapper hleaf, map_key_rejoined hrevised,
    keys_rejoined hrevised (distinct_declaredChildren path data hmapper s), hdeclared]

/-- The children of a revised state have distinct keys if the original ones have. -/
theorem nodup_keys_children_revise (hmapper : mapper.Edits allowed) {s : State}
    (hkeys : (s.children.map (·.key)).Nodup) :
    ((s.revise mapper path data).1.children.map (·.key)).Nodup := by
  by_cases hleaf : s.type = .final ∨ s.type = .history
  · rw [children_revise_of_leaf path data hmapper hleaf]
    exact List.nodup_nil
  · have hrevised := map_key_reviseEach (pathBelow mapper path data s)
      (dataBelow mapper path data s) hmapper s.children
    rw [children_revise path data hmapper hleaf, map_key_rejoined hrevised]
    exact distinct_rejoined hrevised (distinct_declaredChildren path data hmapper s) hkeys

/-- **One state gets its children.** -/
theorem merges_of_nodup_keys (hmapper : mapper.Edits allowed) {s : State}
    (hkeys : (s.children.map (·.key)).Nodup) :
    State.Merges (mapper data (.of s) path).1
      (fun i c ↦ (c.revise mapper (pathBelow mapper path data s)
        (reviseEach mapper (pathBelow mapper path data s) (dataBelow mapper path data s)
          (s.children.take i)).2).1)
      s (s.revise mapper path data).1 where
  id_eq := id_revise path data hmapper s
  key_eq := key_revise path data hmapper s
  keys_nodup := nodup_keys_children_revise path data hmapper hkeys
  keys_eq hfinal hhistory :=
    map_key_children_revise path data hmapper (not_or.2 ⟨hfinal, hhistory⟩)
  child?_declared hfinal hhistory key hkey := by
    rw [← Import.map_key_declared s.id] at hkey
    obtain ⟨c, hc, rfl⟩ := List.mem_map.1 hkey
    have hnodup := nodup_keys_children_revise path data hmapper hkeys
    refine ⟨c, hc, rfl, Outline.find?_key_eq_some hnodup ?_⟩
    rw [children_revise path data hmapper (not_or.2 ⟨hfinal, hhistory⟩)]
    refine List.mem_map.2 ⟨(c.key, c), Keyed.mem_overlay_of_mem ?_, rfl⟩
    rw [declaredChildren_answer path data hmapper]
    exact List.mem_map_of_mem hc
  kept _ _ hc hkept := getElem?_children_revise path data hmapper hc hkept
  promoted hatomic first rest hfirst := by
    have hleaf : ¬ (s.type = .final ∨ s.type = .history) := by rw [hatomic]; decide
    have htype := (type_settle_answer path data hmapper s).trans hatomic
    rw [hfirst, revise_eq]
    rw [children_revise path data hmapper hleaf] at hfirst
    simp only [rejoin, hfirst]
    exact kind_attach_of_atomic htype first rest
  type_eq hatomic := by
    have htype := type_settle_answer path data hmapper s
    rw [revise_eq, ← htype]
    refine type_attach (children_settle_answer path data hmapper s) fun hsettled ↦ ?_
    rw [htype] at hsettled
    have hleaf : ¬ (s.type = .final ∨ s.type = .history) := by rw [hsettled]; decide
    rw [← children_revise path data hmapper hleaf, hatomic hsettled]
  leaf := children_revise_of_leaf path data hmapper

end State

namespace Machine

variable {m : Machine} (data : σ)

/-- The call for a child is made with the path and the data of its stop. -/
theorem revise_callAt_concat {a : List Nat} {t : Stop σ} {i : Nat} {c : State}
    (ht : m.root.stopAt? mapper [] data a = some t) (hc : t.state.children[i]? = some c) :
    (m.callAt mapper data (a ++ [i])).revise mapper c =
      (c.revise mapper (State.pathBelow mapper t.path t.data t.state)
        (State.reviseEach mapper (State.pathBelow mapper t.path t.data t.state)
          (State.dataBelow mapper t.path t.data t.state) (t.state.children.take i)).2).1 := by
  have hstop := State.stopAt?_concat mapper [] data m.root a i
  rw [ht, Option.bind_some, hc] at hstop
  rw [callAt_eq m data hstop]
  rfl

/-- **Merging loses nothing, doubles nothing and revises nothing that is declared.** Let the
children of every state have distinct keys, and let the mapper only make edits. A state that is kept
is found revised where it was, with its children put together from those that it had and those that
the mapper declares for it. What the mapper makes of other states has no part in what is declared,
and each child that stays is what the mapper makes of it when its turn comes. -/
theorem merges_revise (hm : m.root.KeysDistinct) (hmapper : mapper.Edits fun _ ↦ True)
    {a : List Nat} {s : State} (hs : m.root.at? a = some s) (hkept : m.Keeps mapper data a) :
    ∃ t, (m.revise mapper data).1.root.at? a = some t ∧
      State.Merges ((m.callAt mapper data a).answer mapper)
        (fun i c ↦ (m.callAt mapper data (a ++ [i])).revise mapper c) s t := by
  obtain ⟨t, ht, rfl⟩ := State.exists_stopAt? mapper [] data hs
  have hplace : (m.revise mapper data).1.root.at? a = some (t.result mapper) := by
    refine State.at?_revise [] data hmapper ht fun i hi u v hu hv ↦ ?_
    rw [← callAt_eq m data hu]
    exact hkept i hi v hv
  have hkeys : (t.state.children.map (·.key)).Nodup :=
    hm _ (State.mem_preorder_of_at? hs)
  have hmerges := State.merges_of_nodup_keys t.path t.data hmapper hkeys
  rw [callAt_eq m data ht]
  refine ⟨t.result mapper, hplace, { hmerges with kept := fun i c hc hmem ↦ ?_ }⟩
  rw [revise_callAt_concat data ht hc]
  exact hmerges.kept i c hc hmem

end Machine

/-- Every state gets an alarm and a way out, which takes the place of a state that is locked. -/
def Mapper.guarded : Mapper (List String) :=
  trail [.setChildren [("alarm", .empty), ("locked", .exits)]]

theorem Machine.merges_revise_door :
    door.root.KeysDistinct ∧ Mapper.guarded.Edits (fun _ ↦ True) ∧
      door.Keeps Mapper.guarded [] [0] ∧ ¬ door.Keeps Mapper.guarded [] [0, 1] ∧
        ∃ t, (door.revise Mapper.guarded []).1.root.at? [0] = some t ∧
          t.children.map (·.key) = ["free", "locked", "alarm"] ∧
            (∃ c ∈ Import.declared "door.shut" [("alarm", .empty), ("locked", .exits)],
              c.key = "locked" ∧ t.child? "locked" = some c) ∧
              t.children[0]?.map (fun c ↦ (c.tags, c.initial?)) =
                some (["door", "door.shut"], some "alarm") := by
  have hkeys : door.root.KeysDistinct := by decide
  have hedits : Mapper.guarded.Edits fun _ ↦ True :=
    Mapper.edits_trail (fun _ ↦ trivial) fun _ _ ↦ trivial
  have hkept : door.Keeps Mapper.guarded [] [0] := by decide
  obtain ⟨t, ht, hmerges⟩ := merges_revise [] hkeys hedits rfl hkept
  have hfree := hmerges.kept 0 _ rfl (by decide)
  refine ⟨hkeys, hedits, hkept, by decide, t, ht, hmerges.keys_eq nofun nofun,
    hmerges.child?_declared nofun nofun "locked" (by decide), ?_⟩
  rw [hfree]
  rfl

end Statechart
