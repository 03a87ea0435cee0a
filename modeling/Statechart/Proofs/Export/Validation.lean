import Statechart.Proofs.Export.Reimport
import Statechart.Proofs.Import.Navigation
import Statechart.Proofs.Walk
import Statechart.Revision.Tree

/-!
# Validation by an export that is imported

A revision checks nothing. Whether its result is sound is found out by importing the export:
`Machine.exists_ofConfig_toConfig_iff` says which machines pass. Their ids are distinct and their
states can be entered, as they should be.

Targets are another matter. A target `x` is exported as the reference `#x`, which an import may also
read as an id with keys after it. A target that is no id passes if this reading leads to a state,
and then the transition goes to that state from there on (`Machine.Redirects`). It takes no more
than a state that is replaced by one with an id of its own.
-/

namespace Statechart

namespace State

/-! ### The outline of a tree -/

/-- The state that the keys lead to, one child after the other. -/
def follow? (s : State) : List String → Option State
  | [] => some s
  | key :: keys => (s.child? key).bind fun c ↦ c.follow? keys

theorem follow?_cons (s : State) (key : String) (keys : List String) :
    s.follow? (key :: keys) = (s.child? key).bind fun c ↦ c.follow? keys := rfl

@[simp] theorem id_outline (s : State) : s.outline.id = s.id := by rw [outline_eq]

@[simp] theorem key_outline (s : State) : s.outline.key = s.key := by rw [outline_eq]

@[simp] theorem children_outline (s : State) : s.outline.children = s.children.map outline := by
  rw [outline_eq]

/-- Keys lead to the same place in a tree and in its outline. -/
theorem follow?_outline (s : State) (keys : List String) :
    s.outline.follow? keys = (s.follow? keys).map outline := by
  induction keys generalizing s with
  | nil => rfl
  | cons key keys ih =>
    have hkey : (·.key == key) ∘ outline = fun c : State ↦ c.key == key :=
      funext fun c ↦ by rw [Function.comp_apply, key_outline]
    have hchild : s.outline.children.find? (·.key == key) = (s.child? key).map outline := by
      rw [children_outline, List.find?_map, hkey, child?]
    rw [Outline.follow?_cons, hchild, follow?_cons]
    cases s.child? key with
    | none => rfl
    | some c => exact ih c

/-- The nodes of an outline are those of the tree, in the order of the walk. -/
theorem map_snd_located_outline (s : State) (path : List String) :
    (s.outline.located path).map Prod.snd = s.preorder.map outline := by
  induction s using State.induction generalizing path with
  | step s ih =>
    rw [Outline.located_eq_cons, children_outline, List.map_cons, List.map_flatMap,
      List.flatMap_map, preorder_eq_cons, List.map_cons, List.map_flatMap]
    exact congrArg _ (List.flatMap_congr fun c hc ↦ ih c hc _)

theorem find?_outline (s : State) (id : String) :
    s.outline.find? id = (s.preorder.find? (·.id == id)).map outline := by
  have hid : (·.id == id) ∘ outline = fun u : State ↦ u.id == id :=
    funext fun u ↦ by rw [Function.comp_apply, id_outline]
  have hmap : s.outline.find? id =
      ((s.outline.located []).map Prod.snd).find? (·.id == id) := by
    rw [List.find?_map]
    rfl
  rw [hmap, map_snd_located_outline, List.find?_map, hid]

theorem KeysDistinct.outline {s : State} (h : s.KeysDistinct) : s.outline.KeysDistinct := by
  induction s using State.induction with
  | step s ih =>
    refine .of _ ?_ ?_
    · rw [children_outline, List.map_map]
      exact (List.map_congr_left fun c _ ↦ key_outline c) ▸ h.keys_nodup
    · rw [children_outline]
      exact List.forall_mem_map.2 fun c hc ↦ ih c hc (h.of_mem_children hc)

end State

namespace Machine

variable {m : Machine} {x y : String}

/-- As a target the text `x` is no id of the machine, but an export that is imported makes the id
`y` of it: the longest id that ends before a point in `x` is that of a state from which the keys
after the point lead to the state of the id `y`. -/
def Redirects (m : Machine) (x y : String) : Prop :=
  x ∉ m.root.ids ∧
    ∃ front keys u v, x = front ++ "." ++ keys ∧
      (∀ front' keys', x = front' ++ "." ++ keys' → front' ∈ m.root.ids →
        front'.length ≤ front.length) ∧
      m.find? front = some u ∧ u.follow? (Text.split '.' keys) = some v ∧ v.id = y

theorem redirects_outline_iff : m.root.outline.Redirects x y ↔ m.Redirects x y := by
  rw [Outline.Redirects, Redirects, State.ids_outline]
  refine and_congr_right fun _ ↦ exists₂_congr fun front keys ↦ ?_
  rw [State.find?_outline, ← find?_eq]
  constructor
  · rintro ⟨u, v, hcut, hlongest, hfind, hfollow, hid⟩
    obtain ⟨u, hu, rfl⟩ := Option.map_eq_some_iff.1 hfind
    rw [State.follow?_outline] at hfollow
    obtain ⟨v, hv, rfl⟩ := Option.map_eq_some_iff.1 hfollow
    exact ⟨u, v, hcut, hlongest, hu, hv, State.id_outline v ▸ hid⟩
  · rintro ⟨u, v, hcut, hlongest, hfind, hfollow, hid⟩
    refine ⟨u.outline, v.outline, hcut, hlongest, by rw [hfind]; rfl, ?_, ?_⟩
    · rw [State.follow?_outline, hfollow]
      rfl
    · rw [State.id_outline, hid]

/-- **Which machines pass when their export is imported**: those with distinct ids and states that
can be entered, in which every target is the id of a state or leads to one by keys. -/
theorem exists_ofConfig_toConfig_iff (hkeys : m.root.KeysDistinct) (hkey : m.root.key = m.root.id) :
    (∃ n, ofConfig m.toConfig = .ok n) ↔
      m.root.ids.Nodup ∧ (∀ s ∈ m.root.preorder, s.Enterable) ∧
        ∀ s ∈ m.root.preorder, ∀ t ∈ s.transitions, ∀ x ∈ t.targets,
          x ∈ m.root.ids ∨ ∃ y, m.Redirects x y := by
  have houtline : m.root.toConfig.outline m.root.id m.root.key = m.root.outline :=
    State.outline_toConfig hkeys
  have hresolve : ∀ x, ((Index.below m.root.id m.toConfig.root.states).resolve? []
      (Reference.absolute x)).isSome ↔ x ∈ m.root.ids ∨ ∃ y, m.Redirects x y := by
    intro x
    have hdistinct : (m.root.toConfig.outline m.root.id m.root.key).KeysDistinct :=
      houtline ▸ hkeys.outline
    rw [Option.isSome_iff_exists]
    simp only [toConfig, Index.resolve?_absolute_eq_some_iff hdistinct]
    rw [houtline, State.ids_outline]
    simp only [redirects_outline_iff, exists_or, exists_and_left, exists_eq, and_true]
  have hproblems : m.root.toConfig.problems (Index.below m.root.id m.toConfig.root.states)
      m.root.id [] = [] ↔ _ := Import.problems_toConfig_eq_nil_iff hkeys
  simp only [ofConfig_eq_ok_iff, exists_and_left, exists_eq, and_true]
  rw [root_id_toConfig, outline_toConfig hkeys hkey, State.ids_outline]
  refine and_congr_right fun _ ↦ hproblems.trans ?_
  simp only [hresolve, forall₂_and]

end Machine

/-- A shop that closes. -/
def MachineConfig.shop : MachineConfig where
  root := {
    id := some "shop"
    initial := some "open"
    states := [("open", { on := [("close", [.to ["closed"]])] }), ("closed", {})] }
  context := .null

/-- Declare another state in the place of the one in which the shop is closed. -/
def PendingState.refurbish (p : PendingState) (_ : List State) : PendingState :=
  if p.base.id = "shop" then p.edit [.setChildren [("closed", { id := some "depot" })]] else p

namespace Machine

/-- The shop after the state in which it is closed was replaced. -/
def refurbished : Machine := (⟨(check MachineConfig.shop).value, .null⟩ : Machine).map
  PendingState.refurbish

theorem exists_ofConfig_toConfig_iff_refurbished :
    refurbished.root.KeysDistinct ∧ refurbished.root.key = refurbished.root.id ∧
      ((∃ n, ofConfig refurbished.toConfig = .ok n) ↔
        refurbished.root.ids.Nodup ∧ (∀ s ∈ refurbished.root.preorder, s.Enterable) ∧
          ∀ s ∈ refurbished.root.preorder, ∀ t ∈ s.transitions, ∀ x ∈ t.targets,
            x ∈ refurbished.root.ids ∨ ∃ y, refurbished.Redirects x y) := by
  have hkeys : refurbished.root.KeysDistinct := by decide
  have hkey : refurbished.root.key = refurbished.root.id := by decide
  exact ⟨hkeys, hkey, exists_ofConfig_toConfig_iff hkeys hkey⟩

/-- The shop closes into a state that is gone. It passes all the same, and closes into the depot
from there on. -/
theorem exists_dangling_of_ofConfig_toConfig :
    (∃ m, ofConfig MachineConfig.shop = .ok m ∧ refurbished = m.map PendingState.refurbish) ∧
      refurbished.root.KeysDistinct ∧ refurbished.root.key = refurbished.root.id ∧
      (∃ s ∈ refurbished.root.preorder, ∃ t ∈ s.transitions, t.targets = ["shop.closed"] ∧
        "shop.closed" ∉ refurbished.root.ids) ∧
      ∃ n, ofConfig refurbished.toConfig = .ok n ∧
        ∃ s ∈ n.root.preorder, ∃ t ∈ s.transitions, t.targets = ["depot"] := by
  have himport : ofConfig MachineConfig.shop = .ok _ := (ofConfig_eq _).trans (if_pos (by decide))
  have hpass : ofConfig refurbished.toConfig = .ok _ := (ofConfig_eq _).trans (if_pos (by decide))
  exact ⟨⟨_, himport, rfl⟩, by decide, by decide, by decide, _, hpass, by decide⟩

end Machine

end Statechart
