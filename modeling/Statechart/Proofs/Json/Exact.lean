import Statechart.Keyed
import Statechart.Proofs.Json.Reader
import Mathlib.Data.String.Basic

/-!
# Values that are read exactly

A value is *exact* if its text, inside few enough lists and objects, is read as the value. A list is
exact if its items are (`Json.exact_list_iff`); an object is exact if the values of its members are
and its names ascend (`Json.exact_object_iff`), since that is how members are held. This leaves the
numbers: integers of 64 bits are exact, and of doubles some are and some are not.
-/

namespace Statechart

namespace Json

/-! ### Ascending names -/

section

variable {α : Type} {ms ns : List (String × α)} {k l : String} {v : α}

/-- Do the names of the members ascend? -/
def Ascending (ms : List (String × α)) : Prop := (Keyed.keys ms).Pairwise (· < ·)

instance (ms : List (String × α)) : Decidable (Ascending ms) :=
  inferInstanceAs (Decidable ((Keyed.keys ms).Pairwise (· < ·)))

theorem ascending_cons {e : String × α} :
    Ascending (e :: ms) ↔ (∀ l ∈ Keyed.keys ms, e.1 < l) ∧ Ascending ms := List.pairwise_cons

theorem mem_keys_insertMember :
    l ∈ Keyed.keys (insertMember k v ms) ↔ l = k ∨ l ∈ Keyed.keys ms := by
  induction ms with
  | nil => exact List.mem_cons
  | cons e ms ih =>
    obtain ⟨m, w⟩ := e
    rw [insertMember]
    split
    · exact List.mem_cons
    · split
      · next heq => simp only [Keyed.keys_cons, List.mem_cons, heq, or_self_left]
      · rw [Keyed.keys_cons, Keyed.keys_cons, List.mem_cons, List.mem_cons, ih, or_left_comm]

theorem ascending_insertMember (h : Ascending ms) : Ascending (insertMember k v ms) := by
  induction ms with
  | nil => exact List.pairwise_singleton _ _
  | cons e ms ih =>
    obtain ⟨m, w⟩ := e
    obtain ⟨hbelow, hms⟩ := ascending_cons.1 h
    rw [insertMember]
    split
    · next hk =>
      exact ascending_cons.2 ⟨List.forall_mem_cons.2 ⟨hk, fun l hl ↦ hk.trans (hbelow l hl)⟩, h⟩
    · split
      · next heq => exact ascending_cons.2 ⟨fun l hl ↦ heq ▸ hbelow l hl, hms⟩
      · next hnlt hne =>
        refine ascending_cons.2 ⟨fun l hl ↦ ?_, ih hms⟩
        rcases mem_keys_insertMember.1 hl with rfl | hl
        · exact lt_of_le_of_ne (not_lt.1 hnlt) (Ne.symm hne)
        · exact hbelow l hl

theorem ascending_sortMembers (ms : List (String × α)) : Ascending (sortMembers ms) := by
  have hfold : ∀ {kept : List (String × α)}, Ascending kept →
      Ascending (ms.foldl (fun sorted m ↦ insertMember m.1 m.2 sorted) kept) := by
    induction ms with
    | nil => exact id
    | cons e ms ih => exact fun h ↦ ih (ascending_insertMember h)
  exact hfold List.Pairwise.nil

/-- A name above all others comes last. -/
theorem insertMember_of_forall_lt (h : ∀ l ∈ Keyed.keys ms, l < k) :
    insertMember k v ms = ms ++ [(k, v)] := by
  induction ms with
  | nil => rfl
  | cons e ms ih =>
    obtain ⟨m, w⟩ := e
    obtain ⟨hfirst, hrest⟩ := List.forall_mem_cons.1 h
    rw [insertMember, if_neg hfirst.not_gt, if_neg hfirst.ne', ih hrest, List.cons_append]

/-- Members with ascending names stay as they are. -/
theorem sortMembers_of_ascending (h : Ascending ms) : sortMembers ms = ms := by
  have hfold : ∀ {kept : List (String × α)}, Ascending (kept ++ ms) →
      ms.foldl (fun sorted m ↦ insertMember m.1 m.2 sorted) kept = kept ++ ms := by
    induction ms with
    | nil => exact fun _ ↦ (List.append_nil _).symm
    | cons e ms ih =>
      intro kept hkept
      have hbelow : ∀ l ∈ Keyed.keys kept, l < e.1 := by
        rw [Ascending, Keyed.keys, List.map_append, List.pairwise_append] at hkept
        exact fun l hl ↦ hkept.2.2 l hl e.1 List.mem_cons_self
      rw [List.foldl_cons, insertMember_of_forall_lt hbelow, ih (ascending_cons.1 h).2]
      · exact List.append_assoc _ _ _
      · rwa [List.append_assoc, List.singleton_append]
  exact hfold h

end

/-! ### Exact values -/

/-- Is the text of the value read as the value, inside few enough lists and objects? -/
def Exact (j : Json) : Prop := j.reread.value? = some j

@[simp] theorem exact_null : Exact .null := rfl

@[simp] theorem exact_bool (b : Bool) : Exact (.bool b) := rfl

@[simp] theorem exact_text (s : String) : Exact (.text s) := rfl

theorem exact_ofInt {i : Int} (hleast : -2 ^ 63 ≤ i) (hgreatest : i < 2 ^ 64) :
    (ofInt i).Exact := by
  rw [Exact, ofInt, reread, Number.reread_int hleast hgreatest]
  rfl

/-- A list is exact if its items are. -/
theorem exact_list_iff {items : List Json} : (list items).Exact ↔ ∀ x ∈ items, x.Exact := by
  have hitems : Document.values? (items.map reread) = some items ↔ ∀ x ∈ items, x.Exact := by
    rw [Document.values?_eq_some_iff, List.forall₂_map_left_iff, List.forall₂_same]
    rfl
  rw [← hitems, Exact, reread, Document.value?, rereadItems_eq_map, Option.map_eq_some_iff]
  constructor
  · rintro ⟨held, hheld, heq⟩
    exact list.inj heq ▸ hheld
  · exact fun hheld ↦ ⟨items, hheld, rfl⟩

section

variable {members held : List (String × Json)}

theorem memberValues?_rereadMembers_eq_some_iff :
    Document.memberValues? (rereadMembers members) = some held ↔
      List.Forall₂ (fun e f ↦ e.1 = f.1 ∧ e.2.reread.value? = some f.2) members held := by
  rw [rereadMembers_eq_map, Document.memberValues?_eq_some_iff, List.forall₂_map_left_iff]
  simp only [Label.name.injEq]

/-- Members are held as they are, but for their order, if their values are exact. -/
theorem memberValues?_rereadMembers_iff :
    Document.memberValues? (rereadMembers members) = some members ↔
      ∀ e ∈ members, e.2.Exact := by
  rw [memberValues?_rereadMembers_eq_some_iff, List.forall₂_same]
  exact forall₂_congr fun e _ ↦ and_iff_right rfl

/-- The names that are held are those of the members. -/
theorem keys_of_memberValues?_rereadMembers
    (h : Document.memberValues? (rereadMembers members) = some held) :
    Keyed.keys held = Keyed.keys members := by
  have hkeys : List.Forall₂ Eq (Keyed.keys members) (Keyed.keys held) :=
    List.forall₂_map_left_iff.2 (List.forall₂_map_right_iff.2
      ((memberValues?_rereadMembers_eq_some_iff.1 h).imp fun _ _ he ↦ he.1))
  rw [List.forall₂_eq_eq_eq] at hkeys
  exact hkeys.symm

/-- An object is exact if its names ascend and its values are exact. -/
theorem exact_object_iff :
    (object members).Exact ↔ Ascending members ∧ ∀ e ∈ members, e.2.Exact := by
  rw [Exact, reread, Document.value?, Option.map_eq_some_iff, ← memberValues?_rereadMembers_iff]
  constructor
  · rintro ⟨held, hheld, heq⟩
    have hsorted : sortMembers held = members := object.inj heq
    have hascending : Ascending members := hsorted ▸ ascending_sortMembers held
    -- the members that are held have the same names, so sorting has not changed them
    have hsame : sortMembers held = held := sortMembers_of_ascending <| by
      rwa [Ascending, keys_of_memberValues?_rereadMembers hheld]
    obtain rfl : held = members := hsame.symm.trans hsorted
    exact ⟨hascending, hheld⟩
  · rintro ⟨hascending, hheld⟩
    exact ⟨members, hheld, congrArg object (sortMembers_of_ascending hascending)⟩

end

end Json

end Statechart
