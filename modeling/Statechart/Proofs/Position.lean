import Statechart.Proofs.Tree

/-!
# Positions in a tree of states

A *position* is the list of numbers of the children to go down to, so it tells apart also states
that are equal. `State.at?` goes to a position, and `State.positions` lists the positions of a tree
in the order of the walk: going to each of them in turn gives the states of the walk
(`State.filterMap_at?_positions`), and a position stands after all positions above it
(`State.take_sublist_positions`).
-/

namespace Statechart

namespace State

/-! ### Going to a position -/

/-- The state at a position, if the tree goes that far. -/
def at? (s : State) : List Nat → Option State
  | [] => some s
  | i :: a => s.children[i]?.bind fun c ↦ c.at? a

theorem at?_cons (s : State) (i : Nat) (a : List Nat) :
    s.at? (i :: a) = s.children[i]?.bind fun c ↦ c.at? a := rfl

theorem at?_cons_eq_some_iff {s u : State} {i : Nat} {a : List Nat} :
    s.at? (i :: a) = some u ↔ ∃ c, s.children[i]? = some c ∧ c.at? a = some u := by
  rw [at?_cons, Option.bind_eq_some_iff]

/-- What is found at a position belongs to the tree. -/
theorem mem_preorder_of_at? {s u : State} {a : List Nat} (h : s.at? a = some u) :
    u ∈ s.preorder := by
  induction a generalizing s with
  | nil =>
    obtain rfl : s = u := Option.some.inj h
    exact mem_preorder_self s
  | cons i a ih =>
    obtain ⟨c, hc, ha⟩ := at?_cons_eq_some_iff.1 h
    exact mem_preorder_of_mem_children (List.mem_of_getElem? hc) (ih ha)

/-- Every position above that of a state is that of a state with children. -/
theorem exists_at?_take {s u : State} {a : List Nat} (h : s.at? a = some u) {i : Nat}
    (hi : i < a.length) : ∃ v, s.at? (a.take i) = some v ∧ v.children ≠ [] := by
  induction a generalizing s i with
  | nil => exact absurd hi (Nat.not_lt_zero i)
  | cons n a ih =>
    obtain ⟨c, hc, ha⟩ := at?_cons_eq_some_iff.1 h
    cases i with
    | zero => exact ⟨s, rfl, List.ne_nil_of_mem (List.mem_of_getElem? hc)⟩
    | succ i =>
      obtain ⟨v, hv, hne⟩ := ih ha (Nat.lt_of_succ_lt_succ hi)
      exact ⟨v, at?_cons_eq_some_iff.2 ⟨c, hc, hv⟩, hne⟩

/-- A state below the root is a child of the state above it. -/
theorem exists_mem_children_of_at?_take {s c : State} {a : List Nat} {i : Nat} (hi : i < a.length)
    (h : s.at? (a.take (i + 1)) = some c) :
    ∃ u, s.at? (a.take i) = some u ∧ c ∈ u.children := by
  induction a generalizing s i with
  | nil => exact absurd hi (Nat.not_lt_zero i)
  | cons n a ih =>
    rw [List.take_succ_cons] at h
    obtain ⟨d, hd, ha⟩ := at?_cons_eq_some_iff.1 h
    cases i with
    | zero =>
      obtain rfl : d = c := Option.some.inj ha
      exact ⟨s, rfl, List.mem_of_getElem? hd⟩
    | succ i =>
      obtain ⟨u, hu, hc⟩ := ih (Nat.lt_of_succ_lt_succ hi) ha
      exact ⟨u, at?_cons_eq_some_iff.2 ⟨d, hd, hu⟩, hc⟩

/-! ### All positions -/

mutual

/-- The positions of a tree, each before those below it. -/
def positions : State → List (List Nat)
  | ⟨_, k⟩ => [] :: (positionsKind k).map fun (i, a) ↦ i :: a

/-- The positions below a state of this kind, with the number of the child apart. -/
def positionsKind : StateKind State → List (Nat × List Nat)
  | .compound _ states => positionsAll states
  | .parallel states => positionsAll states
  | _ => []

/-- The positions in the trees of the list, with the number of the tree. -/
def positionsAll : List State → List (Nat × List Nat)
  | [] => []
  | s :: ss => s.positions.map (fun a ↦ (0, a)) ++ (positionsAll ss).map fun (i, a) ↦ (i + 1, a)

end

theorem positions_eq_cons (s : State) :
    s.positions = [] :: (positionsAll s.children).map fun (i, a) ↦ i :: a := by
  obtain ⟨f, k⟩ := s
  rw [positions, children]
  cases k <;> rfl

/-- The trees of a list are numbered from the left. -/
theorem map_positions_sublist {ss : List State} {c : State} {n : Nat} (h : ss[n]? = some c) :
    (c.positions.map fun a ↦ (n, a)).Sublist (positionsAll ss) := by
  induction ss generalizing n with
  | nil => exact absurd h (by rw [List.getElem?_nil]; exact nofun)
  | cons s ss ih =>
    rw [positionsAll]
    cases n with
    | zero =>
      obtain rfl : s = c := Option.some.inj h
      exact List.sublist_append_left _ _
    | succ n =>
      have hlater : (c.positions.map fun a ↦ (n + 1, a)).Sublist
          ((positionsAll ss).map fun (i, a) ↦ (i + 1, a)) := by
        have hmap := (ih h).map fun (i, a) ↦ (i + 1, a)
        rwa [List.map_map] at hmap
      exact hlater.trans (List.sublist_append_right _ _)

theorem exists_of_mem_positionsAll {ss : List State} {n : Nat} {a : List Nat}
    (h : (n, a) ∈ positionsAll ss) : ∃ c, ss[n]? = some c ∧ a ∈ c.positions := by
  induction ss generalizing n with
  | nil => exact absurd h List.not_mem_nil
  | cons s ss ih =>
    rw [positionsAll, List.mem_append, List.mem_map, List.mem_map] at h
    rcases h with ⟨b, hb, heq⟩ | ⟨⟨i, b⟩, hb, heq⟩
    · obtain ⟨rfl, rfl⟩ := Prod.mk.inj heq
      exact ⟨s, rfl, hb⟩
    · obtain ⟨rfl, rfl⟩ := Prod.mk.inj heq
      exact ih hb

/-- The positions listed are those at which there is a state. -/
theorem mem_positions_iff {s : State} {a : List Nat} :
    a ∈ s.positions ↔ ∃ u, s.at? a = some u := by
  induction a generalizing s with
  | nil =>
    rw [positions_eq_cons]
    exact iff_of_true List.mem_cons_self ⟨s, rfl⟩
  | cons n a ih =>
    have hmem : n :: a ∈ s.positions ↔ (n, a) ∈ positionsAll s.children := by
      rw [positions_eq_cons, List.mem_cons, List.mem_map]
      constructor
      · rintro (heq | ⟨⟨i, b⟩, hb, heq⟩)
        · exact absurd heq (List.cons_ne_nil n a)
        · obtain ⟨rfl, rfl⟩ := List.cons.inj heq
          exact hb
      · exact fun h ↦ .inr ⟨(n, a), h, rfl⟩
    rw [hmem]
    constructor
    · intro h
      obtain ⟨c, hc, ha⟩ := exists_of_mem_positionsAll h
      obtain ⟨u, hu⟩ := ih.1 ha
      exact ⟨u, at?_cons_eq_some_iff.2 ⟨c, hc, hu⟩⟩
    · rintro ⟨u, hu⟩
      obtain ⟨c, hc, ha⟩ := at?_cons_eq_some_iff.1 hu
      exact (map_positions_sublist hc).subset (List.mem_map_of_mem (ih.2 ⟨u, ha⟩))

/-- A position stands after every position above it. -/
theorem take_sublist_positions {s : State} {a : List Nat} (h : a ∈ s.positions) {i : Nat}
    (hi : i < a.length) : [a.take i, a].Sublist s.positions := by
  induction a generalizing s i with
  | nil => exact absurd hi (Nat.not_lt_zero i)
  | cons n a ih =>
    obtain ⟨u, hu⟩ := mem_positions_iff.1 h
    obtain ⟨c, hc, ha⟩ := at?_cons_eq_some_iff.1 hu
    have hpositions : ∀ as : List (List Nat), as.Sublist c.positions →
        (as.map (n :: ·)).Sublist ((positionsAll s.children).map fun (i, a) ↦ i :: a) := by
      intro as has
      have hmap := ((has.map fun a ↦ (n, a)).trans (map_positions_sublist hc)).map
        fun (i, a) ↦ i :: a
      rwa [List.map_map] at hmap
    have hmem : a ∈ c.positions := mem_positions_iff.2 ⟨u, ha⟩
    rw [positions_eq_cons]
    cases i with
    | zero => exact (hpositions [a] (List.singleton_sublist.2 hmem)).cons_cons []
    | succ i => exact (hpositions _ (ih hmem (Nat.lt_of_succ_lt_succ hi))).cons []

/-! ### One item for each position -/

section

variable {α : Type}

theorem filterMap_positions (f : List Nat → Option α) (s : State) :
    s.positions.filterMap f =
      (f []).toList ++ (positionsAll s.children).filterMap fun (i, a) ↦ f (i :: a) := by
  rw [positions_eq_cons, List.filterMap_cons, List.filterMap_map]
  cases f [] <;> rfl

theorem filterMap_positionsAll_cons (f : Nat × List Nat → Option α) (s : State) (ss : List State) :
    (positionsAll (s :: ss)).filterMap f =
      s.positions.filterMap (fun a ↦ f (0, a))
        ++ (positionsAll ss).filterMap fun (i, a) ↦ f (i + 1, a) := by
  rw [positionsAll, List.filterMap_append, List.filterMap_map, List.filterMap_map]
  rfl

end

/-- Going to each position in turn is a walk over the tree. -/
theorem filterMap_at?_positions (s : State) : s.positions.filterMap s.at? = s.preorder := by
  induction s using State.induction with
  | step s ih =>
    have hall : ∀ ss : List State, (∀ c ∈ ss, c.positions.filterMap c.at? = c.preorder) →
        ((positionsAll ss).filterMap fun (i, a) ↦ ss[i]?.bind fun c ↦ c.at? a) =
          ss.flatMap preorder := by
      intro ss hss
      induction ss with
      | nil => rfl
      | cons c ss ihss =>
        obtain ⟨hc, hss⟩ := List.forall_mem_cons.1 hss
        rw [filterMap_positionsAll_cons, List.flatMap_cons, ← hc, ← ihss hss]
        rfl
    rw [filterMap_positions, preorder_eq_cons, ← hall s.children ih]
    rfl

end State

end Statechart
