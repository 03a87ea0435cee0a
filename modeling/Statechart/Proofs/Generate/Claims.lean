import Statechart.Generate.Laws
import Statechart.Proofs.Generate.Assembly
import Statechart.Proofs.Generate.Pool
import Mathlib.Data.List.Nodup

/-!
# Ids claimed one after the other

When ids are claimed for one name after the other (`Laws.claimAll`), the pool holds the ids that it
has given out, each of them once. So what is known of the search for one id holds at any time:
`NamePool.GivesFresh` says what a claim does in a pool that has given out the given ids.

Laying out a shape claims ids for the names of its states in preorder (`Shape.claimAll_names`), so
its states have distinct ids: `Shape.nodup_ids_layout`.
-/

namespace Statechart

/-! ### Names for states -/

/-- A text of one character starts the texts of which it is the first character. -/
theorem Text.startsWith_singleton_iff {mark c : Char} {cs : List Char} {s : String}
    (h : s.toList = c :: cs) : startsWith (String.singleton mark) s = true ↔ c = mark := by
  rw [startsWith, String.toList_singleton, h, dropLead?, dropLead?]
  split
  · next heq => exact ⟨fun _ ↦ heq.symm, fun _ ↦ rfl⟩
  · next hne => exact ⟨fun hsome ↦ absurd hsome Bool.false_ne_true, fun heq ↦ absurd heq.symm hne⟩

namespace Name

/-- A state name has a first character, which is none that a reference starts with. -/
theorem isState_iff {name : String} :
    isState name = true ↔
      name ≠ "__proto__" ∧ ∃ c cs, name.toList = c :: cs ∧ c ≠ '#' ∧ c ≠ '.' := by
  have hhash : "#" = String.singleton '#' := rfl
  have hpoint : "." = String.singleton '.' := rfl
  simp only [isState, Bool.and_eq_true, bne_iff_ne, Bool.not_eq_true', ← Bool.not_eq_true]
  cases hname : name.toList with
  | nil =>
    have hempty : name = "" := String.toList_inj.1 hname
    simp [hempty]
  | cons c cs =>
    have hempty : name ≠ "" := by
      rintro rfl
      cases hname
    rw [hhash, hpoint, Text.startsWith_singleton_iff hname, Text.startsWith_singleton_iff hname]
    simp [hempty, and_assoc]

/-- A state name stays one with a number after it. -/
theorem isState_numbered {name : String} (h : isState name = true) (n : Nat) :
    isState (NamePool.numbered name n) = true := by
  obtain ⟨-, c, cs, hname, hfirst⟩ := isState_iff.1 h
  have hchars : (NamePool.numbered name n).toList = c :: cs ++ Decimal.digits n := by
    rw [NamePool.numbered, Decimal.text, String.toList_append, hname, String.toList_ofList]
  refine isState_iff.2 ⟨fun hproto ↦ ?_, c, _, hchars, hfirst⟩
  -- the last character is a digit
  have hlast : (c :: cs ++ Decimal.digits n).getLast? = some '_' := by
    rw [← hchars, hproto]
    rfl
  rw [List.getLast?_append_of_ne_nil _ (Decimal.digits_ne_nil n)] at hlast
  have hdigit := Decimal.isDigit_of_mem_digits (List.mem_of_getLast? hlast)
  exact absurd hdigit (by decide)

end Name

/-- An id that is claimed for a state name is a state name. -/
theorem NamePool.isState_claim (pool : NamePool) {name : String} (h : Name.isState name = true) :
    Name.isState (pool.claim name).1 = true := by
  by_cases hname : name ∈ pool.taken
  · obtain ⟨n, hn⟩ := pool.exists_freshId_eq_numbered name hname
    rw [fst_claim, hn]
    exact Name.isState_numbered h n
  · rw [fst_claim, (pool.freshId_eq_self_iff name).2 hname]
    exact h

/-! ### Runs of claims -/

namespace Laws

variable (pool : NamePool) (names : List String)

theorem claimAll_cons (name : String) :
    claimAll pool (name :: names) =
      ((pool.claim name).1 :: (claimAll (pool.claim name).2 names).1,
        (claimAll (pool.claim name).2 names).2) := rfl

theorem claimAll_append (xs ys : List String) :
    claimAll pool (xs ++ ys) =
      ((claimAll pool xs).1 ++ (claimAll (claimAll pool xs).2 ys).1,
        (claimAll (claimAll pool xs).2 ys).2) := by
  induction xs generalizing pool with
  | nil => rfl
  | cons x xs ih =>
    rw [List.cons_append, claimAll_cons, claimAll_cons, ih, List.cons_append]

theorem length_claimAll : (claimAll pool names).1.length = names.length := by
  induction names generalizing pool with
  | nil => rfl
  | cons name names ih => exact congrArg Nat.succ (ih _)

/-- The ids that are given out are those that are taken from then on. -/
theorem taken_claimAll :
    (claimAll pool names).2.taken = (claimAll pool names).1.reverse ++ pool.taken := by
  induction names generalizing pool with
  | nil => rfl
  | cons name names ih =>
    rw [claimAll_cons, ih, NamePool.taken_claim, List.reverse_cons, List.append_assoc,
      List.singleton_append]

/-- A pool in which no id is taken twice stays so. -/
theorem nodup_taken_claimAll (h : pool.taken.Nodup) : (claimAll pool names).2.taken.Nodup := by
  induction names generalizing pool with
  | nil => exact h
  | cons name names ih => exact ih _ (pool.nodup_taken_claim name h)

theorem taken_claimAll_empty :
    (claimAll .empty names).2.taken = (claimAll .empty names).1.reverse :=
  (taken_claimAll .empty names).trans (List.append_nil _)

/-- **No id is given out twice.** -/
theorem nodup_claimAll : (claimAll .empty names).1.Nodup := by
  rw [← List.nodup_reverse, ← taken_claimAll_empty]
  exact nodup_taken_claimAll .empty names List.nodup_nil

end Laws

/-- What it is to claim an id for `name` from a pool that has given out `ids`, in this order. -/
structure NamePool.GivesFresh (pool : NamePool) (ids : List String) (name : String) : Prop where
  taken_eq : pool.taken = ids.reverse
  nodup : ids.Nodup
  /-- The search ends with the id, after at most as many attempts with a number as ids are taken. -/
  search : ∃ n ≤ pool.size, ∀ m found,
    Search pool.taken name name pool.size m found ↔ m = n ∧ found = (pool.claim name).1
  not_mem : (pool.claim name).1 ∉ ids
  eq_name_iff : (pool.claim name).1 = name ↔ name ∉ ids
  exists_eq_numbered : name ∈ ids → ∃ n, (pool.claim name).1 = numbered name n
  size_claim : (pool.claim name).2.size = pool.size + 1
  isState : Name.isState name = true → Name.isState (pool.claim name).1 = true

/-! ### Layouts -/

/-- The ids of the states, each before those below it. -/
def Layout.ids (l : Layout) : List String := l.preorder.map Prod.fst

/-- The layout is of the type of the shape, and its children have the shapes of the children. -/
inductive Layout.HasShape : Layout → Shape → Prop where
  | of {l : Layout} {d : Shape} (type_eq : l.type = d.type)
      (children : List.Forall₂ HasShape l.children d.children) : HasShape l d

namespace Shape

/-- The names that ids are made from, each state before those below it. -/
def names (s : Shape) : List String := s.preorder.map (·.name)

/-- **Placing a shape claims ids for its names**, one after the other. -/
theorem claimAll_names (pool : NamePool) (s : Shape) :
    Laws.claimAll pool s.names = ((place pool s).1.ids, (place pool s).2) := by
  induction pool, s using place_induction (fun pool ss ↦
    Laws.claimAll pool ((ss.flatMap preorder).map (·.name)) =
      ((Layout.preorderAll (placeAll pool ss).1).map Prod.fst, (placeAll pool ss).2)) with
  | nil pool => rfl
  | cons pool s ss hs hss =>
    rw [names] at hs
    rw [List.flatMap_cons, List.map_append, Laws.claimAll_append, hs, hss, placeAll,
      Layout.preorderAll, List.map_append]
    rfl
  | step pool s hbelow =>
    rw [names, preorder_eq_cons, List.map_cons, Laws.claimAll_cons, hbelow]
    obtain ⟨type, name, children⟩ := s
    rw [place]
    rfl

/-- A shape is laid out state by state. -/
theorem hasShape_place (pool : NamePool) (s : Shape) : (place pool s).1.HasShape s := by
  induction pool, s using place_induction (fun pool ss ↦
    List.Forall₂ Layout.HasShape (placeAll pool ss).1 ss) with
  | nil pool => exact .nil
  | cons pool s ss hs hss => exact .cons hs hss
  | step pool s hbelow =>
    rw [place_eq]
    exact .of rfl hbelow

theorem ids_layout (s : Shape) : s.layout.ids = (Laws.claimAll .empty s.names).1 := by
  rw [claimAll_names]
  rfl

/-- **The ids of a layout are distinct.** -/
theorem nodup_ids_layout (s : Shape) : s.layout.ids.Nodup := by
  rw [ids_layout]
  exact Laws.nodup_claimAll s.names

end Shape

/-- **Ids are fresh.** Whatever names ids have been claimed for, the next claim ends with a fresh
one. So a layout gives every state of its shape an id of its own. -/
theorem NamePool.givesFresh_claimAll_and_layout :
    (∀ (names : List String) (name : String),
      (Laws.claimAll .empty names).2.GivesFresh (Laws.claimAll .empty names).1 name) ∧
      ∀ s : Shape, s.layout.HasShape s ∧ s.layout.ids = (Laws.claimAll .empty s.names).1 ∧
        s.layout.ids.Nodup ∧ s.layout.ids.length = s.preorder.length := by
  constructor
  · intro names name
    have htaken := Laws.taken_claimAll_empty names
    have hmem : ∀ id, id ∈ (Laws.claimAll .empty names).2.taken ↔
        id ∈ (Laws.claimAll .empty names).1 := by
      intro id
      rw [htaken, List.mem_reverse]
    generalize (Laws.claimAll .empty names).2 = pool at htaken hmem ⊢
    exact {
      taken_eq := htaken
      nodup := Laws.nodup_claimAll names
      search := pool.exists_search_iff name
      not_mem := mt (hmem _).2 (pool.freshId_not_mem name)
      eq_name_iff := (pool.freshId_eq_self_iff name).trans (not_congr (hmem name))
      exists_eq_numbered := fun h ↦ pool.exists_freshId_eq_numbered name ((hmem name).2 h)
      size_claim := rfl
      isState := pool.isState_claim }
  · intro s
    refine ⟨s.hasShape_place .empty, s.ids_layout, s.nodup_ids_layout, ?_⟩
    rw [s.ids_layout, Laws.length_claimAll, Shape.names, List.length_map]

example : (Laws.claimAll .empty ["a", "a", "a1", "a"]).1 = ["a", "a1", "a12", "a3"] := by
  decide +kernel

end Statechart
