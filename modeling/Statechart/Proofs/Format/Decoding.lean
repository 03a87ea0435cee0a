import Statechart.Format.Printing
import Statechart.Format.Decoding
import Statechart.Proofs.Json.Exact
import Mathlib.Data.List.Nodup

/-!
# Decoding what was written

`Json.ReadAs read j x` says that the text of `j` has no fault and that the decoder `read` takes it
for `x`. Every way of putting decoders together has a lemma here that puts such facts together.

A value *reads back* if its text is read as the value (`Json.ReadsBack`). This is asked of values
that are passed through as they are; everything else is read back by construction.

The members of an object are put into a record one after the other (`Record.Reads`). The record that
comes out is the one that was written if each field is read as what was written for it.
-/

namespace Statechart

/-! ### Texts of values -/

/-- Is the text of the value read as the value? -/
def Json.ReadsBack (j : Json) : Prop := Decoding.document Decoding.value j.print = .ok j

namespace Decoding

variable {α : Type}

/-- Nothing is left of the text of a value. -/
theorem document_print_eq (decode : Document → Decoded α) (j : Json) :
    document decode j.print = decode (j.rereadAt 0) := by
  simp only [document, Json.print, String.toList_ofList, Reader.document_chars]
  cases decode (j.rereadAt 0) <;> rfl

/-- The text of a value that does not nest too deep. -/
theorem document_print {decode : Document → Decoded α} {j : Json}
    (h : j.depth < Reader.depthLimit) : document decode j.print = decode j.reread := by
  rw [document_print_eq, Json.rereadAt_eq_reread (by omega)]

end Decoding

namespace Json

/-- **Exact values read back**, if they do not nest too deep, and no others do. -/
theorem readsBack_iff {j : Json} : j.ReadsBack ↔ j.depth < Reader.depthLimit ∧ j.Exact := by
  have hvalue : ∀ d : Document, Decoding.value d = .ok j ↔ d.value? = some j := by
    intro d
    rw [Decoding.value]
    cases d.value? with
    | none => exact iff_of_false (by simp) (by simp)
    | some k => exact ⟨fun h ↦ congrArg some (Except.ok.inj h), fun h ↦ h ▸ rfl⟩
  rw [ReadsBack, Decoding.document_print_eq, hvalue]
  constructor
  · intro h
    have hdepth := depth_lt_of_isSome_value? (by decide) (Option.isSome_of_eq_some h)
    rw [Nat.zero_add] at hdepth
    exact ⟨hdepth, by rwa [rereadAt_eq_reread (by omega)] at h⟩
  · rintro ⟨hdepth, h⟩
    rwa [rereadAt_eq_reread (by omega)]

/-- Nothing but `null` is read as `null`. -/
theorem reread_eq_null_iff {j : Json} : j.reread = .null ↔ j = .null := by
  cases j with
  | null => exact iff_of_true rfl rfl
  | number n =>
    refine iff_of_false (fun h ↦ ?_) (by simp)
    rw [reread] at h
    rcases n.reread_eq_fault_or with hn | ⟨k, hn⟩ <;> cases hn.symm.trans h
  | bool | text | list | object => exact iff_of_false (by simp [reread]) (by simp)

/-! ### Single values -/

variable {α β : Type}

/-- The text of `j` has no fault, and `read` takes it for `x`. -/
structure ReadAs (read : Document → Decoded α) (j : Json) (x : α) : Prop where
  sound : j.reread.sound = true
  eq : read j.reread = .ok x

namespace ReadAs

open Decoding

variable {read : Document → Decoded α} {write : α → Json} {x : α} {j : Json}

theorem text (s : String) : ReadAs Decoding.text (.text s) s := ⟨rfl, rfl⟩

theorem bool (b : Bool) : ReadAs Decoding.bool (.bool b) b := ⟨rfl, rfl⟩

theorem value (h : j.ReadsBack) : ReadAs Decoding.value j j := by
  obtain ⟨-, hexact⟩ := readsBack_iff.1 h
  exact ⟨sound_reread_of_isSome_value? (Option.isSome_of_eq_some hexact),
    by rw [Decoding.value, hexact]⟩

/-- A word of an enumeration is the word for what it stands for. -/
theorem word {medium : Medium} {variant? : String → Option α} {w : String}
    (h : variant? w = some x) : ReadAs (Decoding.word medium variant?) (.text w) x where
  sound := rfl
  eq := by rw [reread, Decoding.word, known, h]

/-- Nothing but `null` leaves a value out. -/
theorem optional (h : ReadAs read j x) (hnull : j ≠ .null) :
    ReadAs (Decoding.optional read) j (some x) where
  sound := h.sound
  eq := by
    rw [Decoding.optional, h.eq]
    · rfl
    · exact fun hread ↦ hnull (reread_eq_null_iff.1 hread)

theorem optionalText (s : String) :
    ReadAs (Decoding.optional Decoding.text) (.text s) (some s) := .optional (.text s) (by simp)

theorem optionalBool (b : Bool) :
    ReadAs (Decoding.optional Decoding.bool) (.bool b) (some b) := .optional (.bool b) (by simp)

theorem optionalWord {medium : Medium} {variant? : String → Option α} {w : String}
    (h : variant? w = some x) :
    ReadAs (Decoding.optional (Decoding.word medium variant?)) (.text w) (some x) :=
  .optional (.word h) (by simp)

/-- A value that is always there when its field is. -/
theorem present (h : ReadAs read j x) : ReadAs (fun d ↦ (read d).map some) j (some x) :=
  ⟨h.sound, congrArg (Except.map some) h.eq⟩

/-! ### Many values -/

section

variable {f : β → α} {write : β → Json} {xs : List β}

theorem all_map (h : ∀ x ∈ xs, ReadAs read (write x) (f x)) :
    all read ((xs.map write).map reread) = .ok (xs.map f) := by
  induction xs with
  | nil => rfl
  | cons x xs ih =>
    obtain ⟨hfirst, hrest⟩ := List.forall_mem_cons.1 h
    rw [List.map_cons, List.map_cons, all, hfirst.eq, ih hrest]
    rfl

/-- A list is read item by item. -/
theorem list_map (h : ∀ x ∈ xs, ReadAs read (write x) (f x)) :
    ReadAs (Decoding.list read) (Printing.list write xs) (xs.map f) where
  sound := sound_reread_list (List.forall_mem_map.2 fun x hx ↦ (h x hx).sound)
  eq := by rw [Printing.list, reread, rereadItems_eq_map, Decoding.list, all_map h]

variable {es : List (String × β)}

/-- Members with new names are put behind those that are there. -/
theorem allEntries_map {kept : List (String × α)}
    (hkeys : (Keyed.keys kept ++ Keyed.keys es).Nodup)
    (h : ∀ e ∈ es, ReadAs read (write e.2) (f e.2)) :
    allEntries read kept (rereadMembers (es.map fun e ↦ (e.1, write e.2))) =
      .ok (kept ++ es.map fun e ↦ (e.1, f e.2)) := by
  induction es generalizing kept with
  | nil => exact congrArg Except.ok (List.append_nil kept).symm
  | cons e es ih =>
    obtain ⟨k, x⟩ := e
    obtain ⟨hfirst, hrest⟩ := List.forall_mem_cons.1 h
    have hnew : k ∉ Keyed.keys kept := fun hk ↦
      (List.nodup_append.1 hkeys).2.2 k hk k List.mem_cons_self rfl
    have hput : Keyed.put k (f x) kept = kept ++ [(k, f x)] := Keyed.put_of_not_mem hnew _
    have hnext : (Keyed.keys (kept ++ [(k, f x)]) ++ Keyed.keys es).Nodup := by
      rwa [Keyed.keys, List.map_append, List.append_assoc]
    have hread : read (write x).reread = .ok (f x) := hfirst.eq
    rw [List.map_cons, rereadMembers, allEntries, hread]
    show allEntries read (Keyed.put k (f x) kept) _ = _
    rw [hput, ih hnext hrest, List.append_assoc]
    rfl

/-- Entries under distinct keys stay in their order. -/
theorem entries_map (hkeys : Keyed.Distinct es)
    (h : ∀ e ∈ es, ReadAs read (write e.2) (f e.2)) :
    ReadAs (Decoding.entries read) (.object (es.map fun e ↦ (e.1, write e.2)))
      (es.map fun e ↦ (e.1, f e.2)) where
  sound := sound_reread_object (List.forall_mem_map.2 fun e he ↦ (h e he).sound)
  eq := by
    rw [reread, Decoding.entries]
    exact allEntries_map hkeys h

end

section

variable {xs : List α} {es : List (String × α)}

theorem list (h : ∀ x ∈ xs, ReadAs read (write x) x) :
    ReadAs (Decoding.list read) (Printing.list write xs) xs := by
  simpa only [List.map_id] using list_map (f := id) h

/-- A list is never taken for a single item. -/
theorem oneOrMany (h : ∀ x ∈ xs, ReadAs read (write x) x) :
    ReadAs (Decoding.oneOrMany read) (Printing.list write xs) xs where
  sound := (list h).sound
  eq := by rw [Decoding.oneOrMany, if_pos (list h).sound, (list h).eq]

theorem entries (hkeys : Keyed.Distinct es) (h : ∀ e ∈ es, ReadAs read (write e.2) e.2) :
    ReadAs (Decoding.entries read) (.object (es.map fun e ↦ (e.1, write e.2))) es := by
  simpa only [id_eq, List.map_id'] using entries_map (f := id) hkeys h

theorem texts (ss : List String) : ReadAs (Decoding.list Decoding.text) (.ofTexts ss) ss :=
  list fun s _ ↦ text s

end

end ReadAs

end Json

/-! ### Groups of fields -/

namespace Record

variable {α β : Type} {r : Record α}

/-- The members `ms` have some of the given names, in their order. They are put into `x` one after
the other, but for those that the group does not know, and `y` comes out. -/
inductive Reads (r : Record α) : α → List String → List (String × Json) → α → Prop
  | nil (x : α) : Reads r x [] [] x
  | absent {x y : α} {names : List String} {ms : List (String × Json)} (name : String)
      (rest : Reads r x names ms y) : Reads r x (name :: names) ms y
  | field {x y z : α} {name : String} {names : List String} {j : Json} {ms : List (String × Json)}
      (mem : name ∈ r.fields) (sound : j.reread.sound = true) (put : r.put name j.reread x = .ok y)
      (rest : Reads r y names ms z) : Reads r x (name :: names) ((name, j) :: ms) z
  | skip {x y : α} {name : String} {names : List String} {j : Json} {ms : List (String × Json)}
      (not_mem : name ∉ r.fields) (sound : j.reread.sound = true) (rest : Reads r x names ms y) :
      Reads r x (name :: names) ((name, j) :: ms) y

namespace Reads

variable {x y z : α} {names others : List String} {ms ns : List (String × Json)}

theorem append (h : r.Reads x names ms y) (hrest : r.Reads y others ns z) :
    r.Reads x (names ++ others) (ms ++ ns) z := by
  induction h with
  | nil => exact hrest
  | absent name _ ih => exact .absent name (ih hrest)
  | field mem sound put _ ih => exact .field mem sound put (ih hrest)
  | skip not_mem sound _ ih => exact .skip not_mem sound (ih hrest)

/-- Members that the group does not know are skipped. -/
theorem skipAll (hskip : ∀ e ∈ ms, e.1 ∉ r.fields ∧ e.2.reread.sound = true)
    (h : r.Reads x names ns y) : r.Reads x (Keyed.keys ms ++ names) (ms ++ ns) y := by
  induction ms with
  | nil => exact h
  | cons e ms ih =>
    obtain ⟨hfirst, hrest⟩ := List.forall_mem_cons.1 hskip
    exact .skip hfirst.1 hfirst.2 (ih hrest)

theorem keys_sublist (h : r.Reads x names ms y) : (Keyed.keys ms).Sublist names := by
  induction h with
  | nil => exact List.Sublist.refl _
  | absent name _ ih => exact ih.cons name
  | field _ _ _ _ ih => exact ih.cons_cons _
  | skip _ _ _ ih => exact ih.cons_cons _

theorem sound (h : r.Reads x names ms y) : ∀ e ∈ ms, e.2.reread.sound = true := by
  induction h with
  | nil => exact fun e he ↦ absurd he List.not_mem_nil
  | absent _ _ ih => exact ih
  | field _ sound _ _ ih => exact List.forall_mem_cons.2 ⟨sound, ih⟩
  | skip _ sound _ ih => exact List.forall_mem_cons.2 ⟨sound, ih⟩

end Reads

theorem finish_eq_ok {seen : List String} (h : ∀ name ∈ r.required, name ∈ seen) (x : α) :
    r.finish seen x = .ok x := by
  have hnone : r.required.find? (!seen.contains ·) = none := by
    refine List.find?_eq_none.2 fun name hname ↦ ?_
    rw [List.contains_iff_mem.2 (h name hname)]
    exact Bool.false_ne_true
  rw [finish, hnone]

namespace Reads

variable (hrequired : ∀ name ∈ r.required, name ∈ r.fields)

include hrequired

/-- The members of an object are read as they are put. -/
theorem members_eq (h : r.Reads x names ms y) {seen : List String} (hseen : (names ++ seen).Nodup)
    (hgiven : ∀ name ∈ r.required, name ∈ Keyed.keys ms ∨ name ∈ seen) :
    r.members seen x (Json.rereadMembers ms) = .ok y := by
  induction h generalizing seen with
  | nil x =>
    exact finish_eq_ok (fun name hname ↦ (hgiven name hname).resolve_left List.not_mem_nil) x
  | absent name _ ih => exact ih (List.nodup_cons.1 hseen).2 hgiven
  | @field _ _ _ name names j ms mem sound put _ ih =>
    obtain ⟨hnew, hrest⟩ := List.nodup_cons.1 hseen
    have hcontains : seen.contains name = false :=
      Bool.eq_false_iff.2 fun hmem ↦ hnew (List.mem_append_right _ (List.contains_iff_mem.1 hmem))
    have hnext : (names ++ name :: seen).Nodup := List.nodup_middle.2 hseen
    rw [Json.rereadMembers, Record.members, if_pos (List.contains_iff_mem.2 mem), hcontains,
      if_neg Bool.false_ne_true, put]
    refine ih hnext fun other hother ↦ ?_
    rcases hgiven other hother with hms | hother
    · rcases List.mem_cons.1 hms with rfl | hms
      · exact .inr List.mem_cons_self
      · exact .inl hms
    · exact .inr (List.mem_cons_of_mem _ hother)
  | @skip _ _ name names j ms not_mem sound _ ih =>
    obtain ⟨-, hrest⟩ := List.nodup_cons.1 hseen
    rw [Json.rereadMembers, Record.members, if_neg (mt List.contains_iff_mem.1 not_mem),
      if_pos j.grammatical_reread]
    have hne : ∀ other ∈ r.required, other ≠ name := fun other hother heq ↦
      not_mem (heq ▸ hrequired other hother)
    exact ih hrest fun other hother ↦
      (hgiven other hother).imp_left fun hms ↦ (List.mem_cons.1 hms).resolve_left (hne other hother)

end Reads

/-- An object is read as its members are put. -/
theorem readAs {ms : List (String × Json)} {y : α}
    (hrequired : ∀ name ∈ r.required, name ∈ r.fields) (hfields : r.fields.Nodup)
    (hgiven : ∀ name ∈ r.required, name ∈ Keyed.keys ms)
    (h : r.Reads r.start r.fields (ms ++ []) y) : Json.ReadAs r.decode (.object ms) y := by
  rw [List.append_nil] at h
  have hnodup : (r.fields ++ []).Nodup := (List.append_nil r.fields).symm ▸ hfields
  exact ⟨Json.sound_reread_object h.sound,
    h.members_eq hrequired hnodup fun name hname ↦ .inl (hgiven name hname)⟩

/-- The field `name` is read by `read` and kept by `set`. -/
structure Field (r : Record α) (name : String) (read : Document → Decoded β) (set : α → β → α) :
    Prop where
  mem : name ∈ r.fields
  put_eq : ∀ d x, r.put name d x = read d >>= fun v ↦ .ok (set x v)

namespace Reads

variable {x y : α} {name : String} {names : List String} {ms : List (String × Json)}

/-- A field that is always written. -/
theorem always (set : α → β → α) {read : Document → Decoded β} {j : Json} {v : β}
    (hv : Json.ReadAs read j v) (hfield : r.Field name read set)
    (hrest : r.Reads (set x v) names ms y) : r.Reads x (name :: names) ((name, j) :: ms) y :=
  .field hfield.mem hv.sound (by rw [hfield.put_eq, hv.eq]; rfl) hrest

/-- A field that is written if there is a value. -/
theorem ifSome (set : α → Option β → α) {read : Document → Decoded (Option β)} {write : β → Json}
    {o : Option β} (hv : ∀ v ∈ o, Json.ReadAs read (write v) (some v))
    (hfield : r.Field name read set) (hnone : set x none = x)
    (hrest : r.Reads (set x o) names ms y) :
    r.Reads x (name :: names) (Printing.ifSome name write o ++ ms) y := by
  cases o with
  | none => exact .absent name (hnone ▸ hrest)
  | some v => exact .always set (hv v rfl) hfield hrest

/-- A field that is written if the list is not empty. -/
theorem ifAny {γ : Type} (set : α → List γ → α) {read : Document → Decoded (List γ)}
    {write : List β → Json} {vs : List β} {ws : List γ} (hv : Json.ReadAs read (write vs) ws)
    (hempty : vs = [] → ws = []) (hfield : r.Field name read set) (hnil : set x [] = x)
    (hrest : r.Reads (set x ws) names ms y) :
    r.Reads x (name :: names) (Printing.ifAny name write vs ++ ms) y := by
  cases vs with
  | nil =>
    rw [hempty rfl, hnil] at hrest
    exact .absent name hrest
  | cons v vs => exact .always set hv hfield hrest

/-- A truth value that is written if it holds. -/
theorem ifTrue (set : α → Bool → α) {b : Bool} (hfield : r.Field name Decoding.bool set)
    (hfalse : set x false = x) (hrest : r.Reads (set x b) names ms y) :
    r.Reads x (name :: names) ((if b then [(name, .bool true)] else []) ++ ms) y := by
  cases b with
  | false => exact .absent name (hfalse ▸ hrest)
  | true => exact .always set (.bool true) hfield hrest

/-- Metadata is written if there is any. -/
theorem metadata (set : α → Option Json → α) {o : Option Json}
    (hv : ∀ j ∈ o, Json.ReadAs Decoding.value j j ∧ j ≠ .null)
    (hfield : r.Field "meta" (Decoding.optional Decoding.value) set) (hnone : set x none = x)
    (hrest : r.Reads (set x o) names ms y) :
    r.Reads x ("meta" :: names) (Printing.metadata o ++ ms) y := by
  cases o with
  | none => exact .absent "meta" (hnone ▸ hrest)
  | some j => exact .always set ((hv j rfl).1.optional (hv j rfl).2) hfield hrest

/-- A value that is written unless it is `null`. -/
theorem unlessNull (set : α → Json → α) {j : Json} (hv : Json.ReadAs Decoding.value j j)
    (hfield : r.Field name Decoding.value set) (hnull : set x .null = x)
    (hrest : r.Reads (set x j) names ms y) :
    r.Reads x (name :: names) ((if j.isNull then [] else [(name, j)]) ++ ms) y := by
  cases j with
  | null => exact .absent name (hnull ▸ hrest)
  | _ => exact .always set hv hfield hrest

end Reads

end Record

end Statechart
