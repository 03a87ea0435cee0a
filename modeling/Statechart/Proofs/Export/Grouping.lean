import Statechart.Keyed
import Mathlib.Data.List.Basic
import Mathlib.Data.List.Perm.Basic

/-!
# Grouping

A list is grouped by a key when items of one key stand next to each other, the keys in the order in
which they first stand and each group in its own order. `Keyed.groups` says this without naming the
steps, `Keyed.foldl_push` that filling a keyed list item by item gives these groups, and
`Keyed.grouped` reads the groups off again.

The first item decides the first group, and what it leaves is grouped by itself. All inductions
here follow this and go by `Keyed.groups_induction`.
-/

namespace Statechart

namespace Keyed

variable {α β κ : Type} [DecidableEq κ]

/-- The items by their keys, in the order in which the keys first stand. -/
def groups (key : α → κ) (xs : List α) : List (κ × List α) :=
  (xs.map key).eraseDups.map fun k ↦ (k, xs.filter (key · = k))

/-- The items group by group. -/
def grouped (key : α → κ) (xs : List α) : List α := (groups key xs).flatMap (·.2)

/-- What passes from the items with other keys than the first one to all items holds of every
list. -/
@[elab_as_elim]
theorem groups_induction (key : α → κ) {motive : List α → Prop} (nil : motive [])
    (cons : ∀ x xs, motive (xs.filter (key · ≠ key x)) → motive (x :: xs)) (xs : List α) :
    motive xs := by
  induction h : xs.length using Nat.strongRecOn generalizing xs with
  | _ n ih =>
    cases xs with
    | nil => exact nil
    | cons x xs =>
      refine cons x xs (ih _ ?_ _ rfl)
      rw [← h, List.length_cons]
      exact Nat.lt_succ_of_le (List.length_filter_le _ xs)

/-- The first group is that of the first item. -/
theorem groups_cons (key : α → κ) (x : α) (xs : List α) :
    groups key (x :: xs) =
      (key x, x :: xs.filter (key · = key x)) :: groups key (xs.filter (key · ≠ key x)) := by
  have hkeys : (xs.map key).filter (fun k ↦ !k == key x) =
      (xs.filter (key · ≠ key x)).map key := by
    rw [List.filter_map]
    refine congrArg _ (List.filter_congr fun y _ ↦ ?_)
    rw [Function.comp_apply, decide_not]
    rfl
  have hfirst : (x :: xs).filter (key · = key x) = x :: xs.filter (key · = key x) :=
    List.filter_cons_of_pos (decide_eq_true rfl)
  rw [groups, List.map_cons, List.eraseDups_cons, hkeys, List.map_cons, groups, hfirst]
  refine congrArg _ (List.map_congr_left fun k hk ↦ ?_)
  -- the key of a later group is not that of the first item
  have hne : k ≠ key x := by
    obtain ⟨y, hy, rfl⟩ := List.mem_map.1 (List.mem_eraseDups.1 hk)
    exact of_decide_eq_true (List.mem_filter.1 hy).2
  rw [List.filter_cons_of_neg (by simpa using Ne.symm hne), List.filter_filter]
  refine congrArg _ (List.filter_congr fun y _ ↦ ?_)
  by_cases hy : key y = k
  · simp [hy, hne]
  · simp [hy]

theorem grouped_cons (key : α → κ) (x : α) (xs : List α) :
    grouped key (x :: xs) =
      x :: xs.filter (key · = key x) ++ grouped key (xs.filter (key · ≠ key x)) := by
  rw [grouped, groups_cons, List.flatMap_cons, grouped]

example : grouped (· % 10) [31, 12, 25, 21, 2] = [31, 21, 12, 2, 25] := by decide

/-- Going through the groups with the key of each is going through the grouped items. -/
theorem flatMap_groups (key : α → κ) (f : κ → α → β) (xs : List α) :
    (groups key xs).flatMap (fun g ↦ g.2.map (f g.1)) =
      (grouped key xs).map fun x ↦ f (key x) x := by
  rw [grouped, List.map_flatMap]
  refine List.flatMap_congr fun g hg ↦ List.map_congr_left fun x hx ↦ ?_
  obtain ⟨k, -, rfl⟩ := List.mem_map.1 hg
  rw [of_decide_eq_true (List.mem_filter.1 hx).2]

/-! ### Grouping keeps the items -/

theorem grouped_perm (key : α → κ) (xs : List α) : (grouped key xs).Perm xs := by
  induction xs using groups_induction key with
  | nil => rfl
  | cons x xs ih =>
    rw [grouped_cons, List.cons_append]
    refine .cons x ((ih.append_left _).trans ?_)
    have h : (xs.filter (key · ≠ key x)) = xs.filter fun y ↦ !decide (key y = key x) :=
      List.filter_congr fun y _ ↦ decide_not
    rw [h]
    exact List.filter_append_perm _ xs

theorem mem_grouped {key : α → κ} {x : α} {xs : List α} : x ∈ grouped key xs ↔ x ∈ xs :=
  (grouped_perm key xs).mem_iff

/-- A group that stands together at the front stays there. -/
theorem grouped_append (key : α → κ) {x : α} {xs ys : List α} (hxs : ∀ y ∈ xs, key y = key x)
    (hys : ∀ y ∈ ys, key y ≠ key x) : grouped key (x :: xs ++ ys) = x :: xs ++ grouped key ys := by
  have hgroup : (xs ++ ys).filter (key · = key x) = xs := by
    rw [List.filter_append, List.filter_eq_self.2 fun y hy ↦ decide_eq_true (hxs y hy),
      List.filter_eq_nil_iff.2 fun y hy ↦ by simpa using hys y hy, List.append_nil]
  have hothers : (xs ++ ys).filter (key · ≠ key x) = ys := by
    rw [List.filter_append, List.filter_eq_nil_iff.2 fun y hy ↦ by simpa using hxs y hy,
      List.filter_eq_self.2 fun y hy ↦ decide_eq_true (hys y hy), List.nil_append]
  rw [List.cons_append, grouped_cons, hgroup, hothers]

/-- **Grouping a grouped list changes nothing.** -/
theorem grouped_grouped (key : α → κ) (xs : List α) :
    grouped key (grouped key xs) = grouped key xs := by
  induction xs using groups_induction key with
  | nil => rfl
  | cons x xs ih =>
    have hfirst : ∀ y ∈ xs.filter (key · = key x), key y = key x := fun y hy ↦
      of_decide_eq_true (List.mem_filter.1 hy).2
    have hrest : ∀ y ∈ grouped key (xs.filter (key · ≠ key x)), key y ≠ key x := fun y hy ↦
      of_decide_eq_true (List.mem_filter.1 (mem_grouped.1 hy)).2
    rw [grouped_cons, grouped_append key hfirst hrest, ih]

/-- Keys that tell apart the same items give the same grouping. -/
theorem grouped_congr {key : α → κ} {κ' : Type} [DecidableEq κ'] {key' : α → κ'} {xs : List α}
    (h : ∀ x ∈ xs, ∀ y ∈ xs, key x = key y ↔ key' x = key' y) :
    grouped key xs = grouped key' xs := by
  induction xs using groups_induction key with
  | nil => rfl
  | cons x xs ih =>
    have hx : ∀ y ∈ xs, key y = key x ↔ key' y = key' x := fun y hy ↦
      h y (List.mem_cons_of_mem x hy) x List.mem_cons_self
    have hrest : xs.filter (key · ≠ key x) = xs.filter (key' · ≠ key' x) :=
      List.filter_congr fun y hy ↦ decide_eq_decide.2 (not_congr (hx y hy))
    rw [grouped_cons, grouped_cons, ← hrest, ih fun y hy z hz ↦
        h y (List.mem_cons_of_mem x (List.mem_of_mem_filter hy)) z
          (List.mem_cons_of_mem x (List.mem_of_mem_filter hz)),
      List.filter_congr fun y hy ↦ decide_eq_decide.2 (hx y hy)]

/-! ### Pushing fills the groups -/

/-- Pushing further items goes through the first group, which takes those of its key. -/
theorem foldl_push_cons (key : α → String) (item : α → β) (k : String) (kept : List β)
    (es : List (String × List β)) (xs : List α) :
    xs.foldl (fun es x ↦ push (key x) (item x) es) ((k, kept) :: es) =
      (k, kept ++ (xs.filter (key · = k)).map item) ::
        (xs.filter (key · ≠ k)).foldl (fun es x ↦ push (key x) (item x) es) es := by
  induction xs generalizing kept es with
  | nil => rw [List.filter_nil, List.map_nil, List.append_nil]; rfl
  | cons x xs ih =>
    rw [List.foldl_cons, push, List.filter_cons, List.filter_cons]
    by_cases h : key x = k
    · rw [if_pos h.symm, ih, if_pos (decide_eq_true h), if_neg (by simpa using h), List.map_cons,
        List.append_assoc, List.singleton_append]
    · rw [if_neg (Ne.symm h), ih, if_neg (by simpa using h), if_pos (by simpa using h),
        List.foldl_cons]

/-- **Pushing items one after the other groups them by their keys.** -/
theorem foldl_push (key : α → String) (item : α → β) (xs : List α) :
    xs.foldl (fun es x ↦ push (key x) (item x) es) [] =
      (groups key xs).map fun g ↦ (g.1, g.2.map item) := by
  induction xs using groups_induction key with
  | nil => rfl
  | cons x xs ih =>
    rw [List.foldl_cons, push, foldl_push_cons, ih, groups_cons, List.map_cons, List.map_cons,
      List.singleton_append]

end Keyed

end Statechart
