import Statechart.Keyed
import Mathlib.Data.List.Basic

/-!
# Taking from keyed lists and laying one over another

`Keyed.take?` takes out the entry under a key and nothing else. `Keyed.overlay` lays one keyed list
over another: an entry gives way to the one that has its key, and what is left over comes at the
end. The keys are then those that were there, followed by the new ones (`Keyed.keys_overlay`).
-/

namespace Statechart

namespace Keyed

variable {α : Type} {key : String} {es rest : List (String × α)} {value : α}

/-! ### Taking an entry out -/

theorem take?_eq_none_iff : take? key es = none ↔ key ∉ keys es := by
  induction es with
  | nil => exact iff_of_true rfl List.not_mem_nil
  | cons e es ih =>
    obtain ⟨k, v⟩ := e
    rw [take?, keys_cons, List.mem_cons, not_or]
    by_cases hk : k = key
    · rw [if_pos hk]
      exact iff_of_false nofun fun h ↦ h.1 hk.symm
    · rw [if_neg hk, Option.map_eq_none_iff, ih, and_iff_right (Ne.symm hk)]

/-- Taking out splits the list at the first entry under the key. -/
theorem exists_of_take? (h : take? key es = some (value, rest)) :
    ∃ before after, es = before ++ (key, value) :: after ∧ rest = before ++ after ∧
      key ∉ keys before := by
  induction es generalizing rest with
  | nil => exact absurd h nofun
  | cons e es ih =>
    obtain ⟨k, v⟩ := e
    rw [take?] at h
    by_cases hk : k = key
    · rw [if_pos hk] at h
      obtain ⟨rfl, rfl⟩ := Prod.mk.inj (Option.some.inj h)
      exact ⟨[], es, by rw [hk]; rfl, rfl, List.not_mem_nil⟩
    · rw [if_neg hk] at h
      obtain ⟨⟨w, others⟩, htake, heq⟩ := Option.map_eq_some_iff.1 h
      obtain ⟨rfl, rfl⟩ := Prod.mk.inj heq
      obtain ⟨before, after, rfl, rfl, hbefore⟩ := ih htake
      refine ⟨(k, v) :: before, after, rfl, rfl, ?_⟩
      rw [keys_cons, List.mem_cons, not_or]
      exact ⟨Ne.symm hk, hbefore⟩

theorem mem_of_take? (h : take? key es = some (value, rest)) : (key, value) ∈ es := by
  obtain ⟨before, after, rfl, -, -⟩ := exists_of_take? h
  exact List.mem_append_right _ List.mem_cons_self

theorem sublist_of_take? (h : take? key es = some (value, rest)) : rest.Sublist es := by
  obtain ⟨before, after, rfl, rfl, -⟩ := exists_of_take? h
  exact (List.Sublist.refl before).append (List.sublist_cons_self _ after)

theorem Distinct.of_sublist (hes : Distinct es) (h : rest.Sublist es) : Distinct rest :=
  List.Nodup.sublist (h.map Prod.fst) hes

/-- What is left after taking out has all keys but the one. -/
theorem keys_of_take? (hes : Distinct es) (h : take? key es = some (value, rest)) :
    keys rest = (keys es).filter (· ≠ key) := by
  obtain ⟨before, after, rfl, rfl, hbefore⟩ := exists_of_take? h
  have hafter : key ∉ keys after := by
    have hnodup : (keys before ++ key :: keys after).Nodup := by
      rwa [Distinct, keys, List.map_append] at hes
    exact (List.nodup_cons.1 (List.nodup_append.1 hnodup).2.1).1
  have hkeep : ∀ ks : List String, key ∉ ks → ks.filter (· ≠ key) = ks := fun ks hks ↦
    List.filter_eq_self.2 fun k hk ↦ decide_eq_true fun (heq : k = key) ↦ hks (heq ▸ hk)
  rw [keys, keys, List.map_append, List.map_append, List.filter_append, List.map_cons,
    List.filter_cons_of_neg (by simp), ← keys, ← keys, hkeep _ hbefore, hkeep _ hafter]

/-! ### Laying over -/

/-- The entries, each with the value that `upper` has under its key if it has one, and then what is
left of `upper`. -/
def overlay (upper : List (String × α)) : List (String × α) → List (String × α)
  | [] => upper
  | (key, value) :: es =>
    match take? key upper with
    | some (other, rest) => (key, other) :: overlay rest es
    | none => (key, value) :: overlay upper es

variable {upper : List (String × α)}

/-- Every entry comes from one of the two lists. -/
theorem mem_or_mem_of_mem_overlay {e : String × α} (h : e ∈ overlay upper es) :
    e ∈ upper ∨ e ∈ es := by
  induction es generalizing upper with
  | nil => exact .inl h
  | cons first es ih =>
    obtain ⟨k, v⟩ := first
    rw [overlay] at h
    split at h
    · next other rest htake =>
      rcases List.mem_cons.1 h with rfl | h
      · exact .inl (mem_of_take? htake)
      · exact (ih h).imp (fun hrest ↦ (sublist_of_take? htake).subset hrest)
          (List.mem_cons_of_mem _)
    · rcases List.mem_cons.1 h with rfl | h
      · exact .inr List.mem_cons_self
      · exact (ih h).imp_right (List.mem_cons_of_mem _)

/-- What is laid over is there, whether it takes the place of an entry or comes at the end. -/
theorem mem_overlay_of_mem {e : String × α} (h : e ∈ upper) : e ∈ overlay upper es := by
  induction es generalizing upper with
  | nil => exact h
  | cons first es ih =>
    obtain ⟨k, v⟩ := first
    rw [overlay]
    split
    · next other rest htake =>
      obtain ⟨before, after, rfl, rfl, -⟩ := exists_of_take? htake
      rcases List.mem_append.1 h with h | h
      · exact List.mem_cons_of_mem _ (ih (List.mem_append_left _ h))
      · rcases List.mem_cons.1 h with rfl | h
        · exact List.mem_cons_self
        · exact List.mem_cons_of_mem _ (ih (List.mem_append_right _ h))
    · exact List.mem_cons_of_mem _ (ih h)

/-- An entry whose key is not met stays where it is. -/
theorem getElem?_overlay {i : Nat} {e : String × α} (h : es[i]? = some e) (he : e.1 ∉ keys upper) :
    (overlay upper es)[i]? = some e := by
  induction es generalizing upper i with
  | nil => cases h
  | cons first es ih =>
    obtain ⟨k, v⟩ := first
    rw [overlay]
    cases i with
    | zero =>
      obtain rfl := Option.some.inj h
      rw [take?_eq_none_iff.2 he]
      rfl
    | succ i =>
      split
      · next other rest htake =>
        exact ih h fun hmem ↦ he (((sublist_of_take? htake).map Prod.fst).subset hmem)
      · exact ih h he

/-- The keys stay in their order, and the new ones follow. -/
theorem keys_overlay (hupper : Distinct upper) :
    keys (overlay upper es) = keys es ++ (keys upper).filter (· ∉ keys es) := by
  induction es generalizing upper with
  | nil =>
    have hall : (keys upper).filter (· ∉ ([] : List String)) = keys upper :=
      List.filter_eq_self.2 fun k _ ↦ decide_eq_true List.not_mem_nil
    rw [overlay, keys_nil, List.nil_append, hall]
  | cons e es ih =>
    obtain ⟨k, v⟩ := e
    rw [overlay]
    split
    · next other rest htake =>
      have hrest : Distinct rest := hupper.of_sublist (sublist_of_take? htake)
      rw [keys_cons, keys_cons, ih hrest, keys_of_take? hupper htake, List.filter_filter,
        List.cons_append]
      refine congrArg _ (congrArg _ (List.filter_congr fun x _ ↦ ?_))
      rw [← Bool.decide_and, decide_eq_decide, List.mem_cons, not_or, and_comm]
    · next htake =>
      rw [keys_cons, keys_cons, ih hupper, List.cons_append]
      refine congrArg _ (congrArg _ (List.filter_congr fun x hx ↦ ?_))
      have hne : x ≠ k := fun heq ↦ take?_eq_none_iff.1 htake (heq ▸ hx)
      rw [decide_eq_decide, List.mem_cons, not_or, and_iff_right hne]

theorem Distinct.overlay (hupper : Distinct upper) (hes : Distinct es) :
    Distinct (overlay upper es) := by
  rw [Distinct, keys_overlay hupper, List.nodup_append]
  refine ⟨hes, List.Nodup.sublist List.filter_sublist hupper, fun a ha b hb heq ↦ ?_⟩
  exact of_decide_eq_true (List.mem_filter.1 hb).2 (heq ▸ ha)

/-- Where no key is met twice, nothing gives way. -/
theorem overlay_eq_append (h : ∀ k ∈ keys upper, k ∉ keys es) : overlay upper es = es ++ upper := by
  induction es with
  | nil => rfl
  | cons e es ih =>
    obtain ⟨k, v⟩ := e
    have hk : take? k upper = none :=
      take?_eq_none_iff.2 fun hmem ↦ h k hmem (keys_cons k v es ▸ List.mem_cons_self)
    have hrest : ∀ x ∈ keys upper, x ∉ keys es := fun x hx hmem ↦
      h x hx (keys_cons k v es ▸ List.mem_cons_of_mem _ hmem)
    rw [overlay, hk, List.cons_append, ← ih hrest]

/-! ### Lists put together entry by entry -/

theorem mem_of_mem_put {es : List (String × α)} {e : String × α}
    (h : e ∈ put key value es) : e = (key, value) ∨ e ∈ es := by
  induction es with
  | nil => exact .inl (List.mem_singleton.1 h)
  | cons first es ih =>
    obtain ⟨k, v⟩ := first
    rw [put] at h
    by_cases hk : k = key
    · rw [if_pos hk, List.mem_cons] at h
      rcases h with rfl | h
      · exact .inl (by rw [hk])
      · exact .inr (List.mem_cons_of_mem _ h)
    · rw [if_neg hk, List.mem_cons] at h
      rcases h with rfl | h
      · exact .inr List.mem_cons_self
      · exact (ih h).imp_right (List.mem_cons_of_mem _)

/-- A list that is put together has each key once, and only entries that were put into it. -/
theorem distinct_ofEntries_and_subset (es : List (String × α)) :
    Distinct (ofEntries es) ∧ ∀ e ∈ ofEntries es, e ∈ es := by
  have hfold : ∀ (later kept : List (String × α)), Distinct kept → (∀ e ∈ kept, e ∈ es) →
      (∀ e ∈ later, e ∈ es) →
      let all := later.foldl (fun kept e ↦ put e.1 e.2 kept) kept
      Distinct all ∧ ∀ e ∈ all, e ∈ es := by
    intro later
    induction later with
    | nil => exact fun kept hkept hmem _ ↦ ⟨hkept, hmem⟩
    | cons e later ih =>
      intro kept hkept hmem hlater
      obtain ⟨he, hlater⟩ := List.forall_mem_cons.1 hlater
      refine ih _ (distinct_put hkept e.1 e.2) (fun x hx ↦ ?_) hlater
      rcases mem_of_mem_put hx with rfl | hx
      · exact he
      · exact hmem x hx
  exact hfold es [] List.nodup_nil (fun e he ↦ absurd he List.not_mem_nil) fun e he ↦ he

end Keyed

end Statechart
