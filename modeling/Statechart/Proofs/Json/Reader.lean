import Statechart.Json.Printer
import Statechart.Proofs.Json.Numeral
import Statechart.Proofs.Json.Quoted
import Mathlib.Data.List.Forall2

/-!
# Reading printed values

The reader takes the text of a value apart into the parts that it was put together from. What it
finds is `Json.reread`, the document of the value again but for numbers, which are what their
numerals are read as. Where lists and objects nest too deep, `Json.rereadAt` has a fault in their
place; `Reader.value_chars` says that this is all that can happen.

What is reread is grammatical. It is sound if it holds a value, and holds none if it nests too deep.
-/

namespace Statechart

/-! ### Documents -/

namespace Document

theorem freeItems_eq_all (allowed : Fault → Bool) (ds : List Document) :
    freeItems allowed ds = ds.all (free allowed) := by
  induction ds with
  | nil => rfl
  | cons d ds ih => rw [freeItems, ih, List.all_cons]

theorem freeMembers_eq_all (allowed : Fault → Bool) (ms : List (Label × Document)) :
    freeMembers allowed ms = ms.all fun e ↦ labelIs allowed e.1 && free allowed e.2 := by
  induction ms with
  | nil => rfl
  | cons e ms ih => rw [freeMembers, ih, List.all_cons]

/-- The values of the items are held one by one. -/
theorem values?_eq_some_iff {ds : List Document} {xs : List Json} :
    values? ds = some xs ↔ List.Forall₂ (fun d x ↦ d.value? = some x) ds xs := by
  induction ds generalizing xs with
  | nil => rw [values?, List.forall₂_nil_left_iff, Option.some_inj, eq_comm]
  | cons d ds ih =>
    simp only [values?, Option.bind_eq_some_iff, Option.map_eq_some_iff, List.forall₂_cons_left_iff,
      ih, eq_comm (a := xs), exists_and_left]

/-- The names and values of the members are held one by one. -/
theorem memberValues?_eq_some_iff {ms : List (Label × Document)} {es : List (String × Json)} :
    memberValues? ms = some es ↔
      List.Forall₂ (fun m e ↦ m.1 = .name e.1 ∧ m.2.value? = some e.2) ms es := by
  induction ms generalizing es with
  | nil => rw [memberValues?, List.forall₂_nil_left_iff, Option.some_inj, eq_comm]
  | cons m ms ih =>
    obtain ⟨l, d⟩ := m
    cases l with
    | fault => simp [memberValues?, List.forall₂_cons_left_iff]
    | name k =>
      simp [memberValues?, Option.bind_eq_some_iff, List.forall₂_cons_left_iff, ih,
        eq_comm (a := es)]

/-- Where all items are held, each of them is. -/
theorem isSome_value?_of_mem {ds : List Document} (h : (values? ds).isSome) :
    ∀ d ∈ ds, d.value?.isSome := by
  obtain ⟨xs, hxs⟩ := Option.isSome_iff_exists.1 h
  exact ((List.forall₂_and_left _ _).1 ((values?_eq_some_iff.1 hxs).imp
    fun d x hd ↦ ⟨Option.isSome_of_eq_some hd, hd⟩)).1

/-- Where all members are held, the value of each of them is. -/
theorem isSome_value?_of_mem_members {ms : List (Label × Document)}
    (h : (memberValues? ms).isSome) : ∀ e ∈ ms, e.2.value?.isSome := by
  obtain ⟨es, hes⟩ := Option.isSome_iff_exists.1 h
  exact ((List.forall₂_and_left _ _).1 ((memberValues?_eq_some_iff.1 hes).imp
    fun m e hm ↦ ⟨Option.isSome_of_eq_some hm.2, hm⟩)).1

end Document

namespace Json

/-! ### Induction -/

/-- What passes from the parts of a value to the value holds of every value. -/
@[elab_as_elim]
theorem induction {motive : Json → Prop} (null : motive .null) (bool : ∀ b, motive (.bool b))
    (number : ∀ n, motive (.number n)) (text : ∀ s, motive (.text s))
    (list : ∀ items, (∀ x ∈ items, motive x) → motive (.list items))
    (object : ∀ members, (∀ e ∈ members, motive e.2) → motive (.object members)) (j : Json) :
    motive j :=
  @Json.rec motive (fun items ↦ ∀ x ∈ items, motive x) (fun members ↦ ∀ e ∈ members, motive e.2)
    (fun e ↦ motive e.2) null bool number text list object
    (fun _ h ↦ absurd h List.not_mem_nil)
    (fun _ _ first rest ↦ List.forall_mem_cons.2 ⟨first, rest⟩)
    (fun _ h ↦ absurd h List.not_mem_nil)
    (fun _ _ first rest ↦ List.forall_mem_cons.2 ⟨first, rest⟩)
    (fun _ _ value ↦ value) j

/-! ### What the reader makes of a value -/

mutual

/-- What the text of a value is read as, inside few enough lists and objects. -/
def reread : Json → Document
  | .null => .null
  | .bool b => .bool b
  | .number n => n.reread
  | .text s => .text s
  | .list items => .list (rereadItems items)
  | .object members => .object (rereadMembers members)

/-- What the items of a list are read as. -/
def rereadItems : List Json → List Document
  | [] => []
  | x :: xs => x.reread :: rereadItems xs

/-- What the members of an object are read as. -/
def rereadMembers : List (String × Json) → List (Label × Document)
  | [] => []
  | (k, x) :: ms => (.name k, x.reread) :: rereadMembers ms

end

theorem rereadItems_eq_map (items : List Json) : rereadItems items = items.map reread := by
  induction items with
  | nil => rfl
  | cons x xs ih => rw [rereadItems, ih, List.map_cons]

theorem rereadMembers_eq_map (members : List (String × Json)) :
    rereadMembers members = members.map fun e ↦ (.name e.1, e.2.reread) := by
  induction members with
  | nil => rfl
  | cons e ms ih => rw [rereadMembers, ih, List.map_cons]

mutual

/-- What the text of a value is read as, inside `depth` lists and objects. -/
def rereadAt (depth : Nat) : Json → Document
  | .list items => Reader.nested depth (.list (rereadItemsAt (depth + 1) items))
  | .object members => Reader.nested depth (.object (rereadMembersAt (depth + 1) members))
  | j => j.reread

/-- What the items of a list are read as, inside `depth` lists and objects. -/
def rereadItemsAt (depth : Nat) : List Json → List Document
  | [] => []
  | x :: xs => x.rereadAt depth :: rereadItemsAt depth xs

/-- What the members of an object are read as, inside `depth` lists and objects. -/
def rereadMembersAt (depth : Nat) : List (String × Json) → List (Label × Document)
  | [] => []
  | (k, x) :: ms => (.name k, x.rereadAt depth) :: rereadMembersAt depth ms

end

end Json

/-! ### How the text of a value starts -/

namespace Reader

/-- A character that may start a value: it is no blank and closes no list. -/
structure Opens (c : Char) : Prop where
  isBlank : isBlank c = false
  ne_bracket : c ≠ ']'

variable {c : Char} {cs : List Char}

theorem Opens.skipBlank (h : Opens c) (cs : List Char) : skipBlank (c :: cs) = c :: cs :=
  List.dropWhile_cons_of_neg (Bool.eq_false_iff.1 h.isBlank)

/-- The start of a numeral is none of the characters that mean something else. -/
theorem ne_of_numeral {d : Char} (hc : Decimal.isDigit c = true ∨ c = '-')
    (hd : Decimal.isDigit d = false ∧ d ≠ '-') : c ≠ d := by
  rintro rfl
  rcases hc with hc | hc
  · exact Bool.false_ne_true (hd.1.symm.trans hc)
  · exact hd.2 hc

theorem opens_numeral (hc : Decimal.isDigit c = true ∨ c = '-') : Opens c := by
  refine ⟨?_, ne_of_numeral hc (by decide)⟩
  have hspace : c ≠ ' ' := ne_of_numeral hc (by decide)
  have hline : c ≠ '\n' := ne_of_numeral hc (by decide)
  have htab : c ≠ '\t' := ne_of_numeral hc (by decide)
  have hreturn : c ≠ '\r' := ne_of_numeral hc (by decide)
  simp [isBlank, hspace, hline, htab, hreturn]

theorem exists_chars_eq_cons (j : Json) : ∃ c cs, j.chars = c :: cs ∧ Opens c := by
  cases j with
  | null => exact ⟨'n', _, rfl, by decide, by decide⟩
  | bool b => cases b <;> exact ⟨_, _, rfl, by decide, by decide⟩
  | number n =>
    obtain ⟨c, cs, hcs, hc⟩ := n.exists_chars_eq_cons
    exact ⟨c, cs, hcs, opens_numeral hc⟩
  | text s => exact ⟨'"', _, rfl, by decide, by decide⟩
  | list items => exact ⟨'[', _, rfl, by decide, by decide⟩
  | object members => exact ⟨'\x7b', _, rfl, by decide, by decide⟩

/-! ### One step of the reader -/

variable {fuel depth : Nat} {d : Document} {rest : List Char}

theorem value_numeral (hc : Decimal.isDigit c = true ∨ c = '-') (cs : List Char) :
    value (fuel + 1) depth (c :: cs) = number (c :: cs) := by
  have hne : ∀ {d}, (Decimal.isDigit d = false ∧ d ≠ '-') → ∀ {ds}, c :: cs = d :: ds → False :=
    fun hd _ heq ↦ ne_of_numeral hc hd (List.cons.inj heq).1
  rw [value, (opens_numeral hc).skipBlank]
  split
  case h_7 => rfl
  all_goals
    next heq => exact (hne (by decide) heq).elim

theorem value_text (s : String) (rest : List Char) :
    value (fuel + 1) depth (Quoted.write s ++ rest) = (.text s, rest) := by
  rw [Quoted.write_append]
  show text (s.toList.flatMap Quoted.escape ++ '"' :: rest) = (.text s, rest)
  simp only [text, Quoted.read_escapes, String.ofList_toList]

theorem label_append (s : String) (rest : List Char) :
    label (Quoted.write s ++ rest) = (.name s, rest) := by
  rw [Quoted.write_append]
  simp only [label, Quoted.read_escapes, String.ofList_toList]

/-- A list that is not empty is read item by item. -/
theorem value_list {ds : List Document} (hopens : Opens c)
    (h : items fuel (depth + 1) (c :: cs) = (ds, rest)) :
    value (fuel + 1) depth ('[' :: c :: cs) = (nested depth (.list ds), rest) := by
  have hskip : skipBlank ('[' :: c :: cs) = '[' :: c :: cs := rfl
  simp only [value, hskip, hopens.skipBlank]
  split
  · next heq => exact absurd (List.cons.inj heq).1 hopens.ne_bracket
  · rw [h]

/-- An object that is not empty is read member by member. -/
theorem value_object {ms : List (Label × Document)}
    (h : members fuel (depth + 1) ('"' :: cs) = (ms, rest)) :
    value (fuel + 1) depth ('\x7b' :: '"' :: cs) = (nested depth (.object ms), rest) := by
  show (nested depth (.object (members fuel (depth + 1) ('"' :: cs)).1),
    (members fuel (depth + 1) ('"' :: cs)).2) = _
  rw [h]

theorem items_last (h : value fuel depth cs = (d, ']' :: rest)) :
    items (fuel + 1) depth cs = ([d], rest) := by
  rw [items, h]
  rfl

theorem items_more (h : value fuel depth cs = (d, ',' :: rest)) :
    items (fuel + 1) depth cs =
      (d :: (items fuel depth rest).1, (items fuel depth rest).2) := by
  rw [items, h]
  rfl

theorem members_last {k : String} (h : value fuel depth cs = (d, '\x7d' :: rest)) :
    members (fuel + 1) depth (Quoted.write k ++ ':' :: cs) = ([(.name k, d)], rest) := by
  have hskip : skipBlank (Quoted.write k ++ ':' :: cs) = Quoted.write k ++ ':' :: cs := rfl
  have hcolon : skipBlank (':' :: cs) = ':' :: cs := rfl
  rw [members, hskip, label_append]
  simp only [hcolon, h]
  rfl

theorem members_more {k : String} (h : value fuel depth cs = (d, ',' :: rest)) :
    members (fuel + 1) depth (Quoted.write k ++ ':' :: cs) =
      ((.name k, d) :: (members fuel depth rest).1, (members fuel depth rest).2) := by
  have hskip : skipBlank (Quoted.write k ++ ':' :: cs) = Quoted.write k ++ ':' :: cs := rfl
  have hcolon : skipBlank (':' :: cs) = ':' :: cs := rfl
  rw [members, hskip, label_append]
  simp only [hcolon, h]
  rfl

/-! ### Printed values -/

/-- The items of a list are read up to the closing bracket, if every item is read up to what
follows it. -/
theorem items_chars {xs : List Json} (hne : xs ≠ [])
    (hread : ∀ x ∈ xs, ∀ fuel depth rest, Ended rest → x.chars.length ≤ fuel →
      value fuel depth (x.chars ++ rest) = (x.rereadAt depth, rest))
    (hfuel : (Json.itemsChars xs).length < fuel) (rest : List Char) :
    items fuel depth (Json.itemsChars xs ++ ']' :: rest) = (Json.rereadItemsAt depth xs, rest) := by
  induction xs generalizing fuel with
  | nil => exact absurd rfl hne
  | cons x xs ih =>
    obtain ⟨hfirst, hrest⟩ := List.forall_mem_cons.1 hread
    obtain ⟨fuel, rfl⟩ := Nat.exists_eq_add_one_of_ne_zero (Nat.ne_zero_of_lt hfuel)
    cases xs with
    | nil =>
      rw [Json.itemsChars, Json.moreItemsChars, List.append_nil] at hfuel ⊢
      exact items_last (hfirst _ _ _ (ended_cons (by decide) rest) (by omega))
    | cons y ys =>
      have hmore : Json.itemsChars (x :: y :: ys) =
          x.chars ++ ',' :: Json.itemsChars (y :: ys) := rfl
      rw [hmore, List.length_append, List.length_cons] at hfuel
      have htail : items fuel depth (Json.itemsChars (y :: ys) ++ ']' :: rest) = _ :=
        ih (List.cons_ne_nil y ys) hrest (by omega)
      rw [hmore, List.append_assoc, List.cons_append,
        items_more (hfirst _ _ _ (ended_cons (by decide) _) (by omega)), htail]
      rfl

/-- The members of an object are read up to the closing brace, if every value is read up to what
follows it. -/
theorem members_chars {ms : List (String × Json)} (hne : ms ≠ [])
    (hread : ∀ e ∈ ms, ∀ fuel depth rest, Ended rest → e.2.chars.length ≤ fuel →
      value fuel depth (e.2.chars ++ rest) = (e.2.rereadAt depth, rest))
    (hfuel : (Json.membersChars ms).length < fuel) (rest : List Char) :
    members fuel depth (Json.membersChars ms ++ '\x7d' :: rest) =
      (Json.rereadMembersAt depth ms, rest) := by
  induction ms generalizing fuel with
  | nil => exact absurd rfl hne
  | cons e ms ih =>
    obtain ⟨k, x⟩ := e
    obtain ⟨hfirst, hrest⟩ := List.forall_mem_cons.1 hread
    obtain ⟨fuel, rfl⟩ := Nat.exists_eq_add_one_of_ne_zero (Nat.ne_zero_of_lt hfuel)
    cases ms with
    | nil =>
      have hlast : Json.membersChars [(k, x)] = Quoted.write k ++ ':' :: x.chars := by
        rw [Json.membersChars, Json.moreMembersChars, List.append_nil]
      rw [hlast, List.length_append, List.length_cons] at hfuel
      have hvalue : x.chars.length ≤ fuel := by omega
      rw [hlast, List.append_assoc, List.cons_append]
      exact members_last (hfirst _ _ _ (ended_cons (by decide) rest) hvalue)
    | cons f fs =>
      have hmore : Json.membersChars ((k, x) :: f :: fs) =
          Quoted.write k ++ ':' :: (x.chars ++ ',' :: Json.membersChars (f :: fs)) := rfl
      rw [hmore, List.length_append, List.length_cons, List.length_append,
        List.length_cons] at hfuel
      have hvalue : x.chars.length ≤ fuel := by omega
      have htail : members fuel depth (Json.membersChars (f :: fs) ++ '\x7d' :: rest) = _ :=
        ih (List.cons_ne_nil f fs) hrest (by omega)
      rw [hmore, List.append_assoc, List.cons_append, List.append_assoc, List.cons_append,
        members_more (hfirst _ _ _ (ended_cons (by decide) _) hvalue), htail]
      rfl

/-- No text is empty, so reading one takes a step. -/
theorem exists_eq_succ_of_length_chars_le {j : Json} (h : j.chars.length ≤ fuel) :
    ∃ n, fuel = n + 1 := by
  obtain ⟨c, cs, hcs, -⟩ := exists_chars_eq_cons j
  rw [hcs] at h
  exact Nat.exists_eq_add_one_of_ne_zero (Nat.ne_zero_of_lt h)

/-- **What a printed value is read as**, whatever follows it. -/
theorem value_chars (j : Json) (fuel depth : Nat) (rest : List Char) (hrest : Ended rest)
    (hfuel : j.chars.length ≤ fuel) :
    value fuel depth (j.chars ++ rest) = (j.rereadAt depth, rest) := by
  induction j using Json.induction generalizing fuel depth rest with
  | null =>
    obtain ⟨fuel, rfl⟩ := exists_eq_succ_of_length_chars_le hfuel
    rfl
  | bool b =>
    obtain ⟨fuel, rfl⟩ := exists_eq_succ_of_length_chars_le hfuel
    cases b <;> rfl
  | number n =>
    obtain ⟨fuel, rfl⟩ := exists_eq_succ_of_length_chars_le hfuel
    obtain ⟨c, cs, hcs, hc⟩ := n.exists_chars_eq_cons
    have hnumber := n.number_append hrest
    rw [hcs, List.cons_append] at hnumber
    rw [Json.chars, hcs, List.cons_append, value_numeral hc, hnumber]
    rfl
  | text s =>
    obtain ⟨fuel, rfl⟩ := exists_eq_succ_of_length_chars_le hfuel
    exact value_text s rest
  | list items ih =>
    obtain ⟨fuel, rfl⟩ := exists_eq_succ_of_length_chars_le hfuel
    rw [Json.chars, List.length_cons, List.length_append, List.length_singleton] at hfuel
    rw [Json.chars, List.cons_append, List.append_assoc, List.singleton_append]
    cases items with
    | nil => rfl
    | cons x xs =>
      have hitems : items fuel (depth + 1) (Json.itemsChars (x :: xs) ++ ']' :: rest) = _ :=
        items_chars (List.cons_ne_nil x xs) ih (by omega) rest
      obtain ⟨c, cs, hcs, hopens⟩ := exists_chars_eq_cons x
      rw [Json.itemsChars, hcs, List.append_assoc, List.cons_append] at hitems ⊢
      exact value_list hopens hitems
  | object members ih =>
    obtain ⟨fuel, rfl⟩ := exists_eq_succ_of_length_chars_le hfuel
    rw [Json.chars, List.length_cons, List.length_append, List.length_singleton] at hfuel
    rw [Json.chars, List.cons_append, List.append_assoc, List.singleton_append]
    cases members with
    | nil => rfl
    | cons e es =>
      exact value_object (members_chars (List.cons_ne_nil e es) ih (by omega) rest)

theorem document_chars (j : Json) : document j.chars = (j.rereadAt 0, []) := by
  have hread := value_chars j (2 * j.chars.length + 2) 0 [] ended_nil (by omega)
  rwa [List.append_nil] at hread

end Reader

/-! ### Depth -/

namespace Json

theorem rereadItemsAt_eq_map (depth : Nat) (items : List Json) :
    rereadItemsAt depth items = items.map (rereadAt depth) := by
  induction items with
  | nil => rfl
  | cons x xs ih => rw [rereadItemsAt, ih, List.map_cons]

theorem rereadMembersAt_eq_map (depth : Nat) (members : List (String × Json)) :
    rereadMembersAt depth members = members.map fun e ↦ (.name e.1, e.2.rereadAt depth) := by
  induction members with
  | nil => rfl
  | cons e ms ih => rw [rereadMembersAt, ih, List.map_cons]

/-- The bounds on the depth of a list are those on the depths of its items. -/
theorem itemsDepth_lt_iff {items : List Json} {n m : Nat} :
    n + itemsDepth items < m ↔ n < m ∧ ∀ x ∈ items, n + x.depth < m := by
  induction items with
  | nil => simp [itemsDepth]
  | cons x xs ih =>
    rw [itemsDepth, List.forall_mem_cons, and_left_comm, ← ih]
    omega

/-- The bounds on the depth of an object are those on the depths of its members. -/
theorem membersDepth_lt_iff {members : List (String × Json)} {n m : Nat} :
    n + membersDepth members < m ↔ n < m ∧ ∀ e ∈ members, n + e.2.depth < m := by
  induction members with
  | nil => simp [membersDepth]
  | cons e ms ih =>
    rw [membersDepth, List.forall_mem_cons, and_left_comm, ← ih]
    omega

/-- Where lists and objects do not nest too deep, none of them is lost. -/
theorem rereadAt_eq_reread {j : Json} {depth : Nat} (h : depth + j.depth < Reader.depthLimit) :
    j.rereadAt depth = j.reread := by
  induction j using Json.induction generalizing depth with
  | null | bool | number | text => rfl
  | list items ih =>
    rw [Json.depth, Nat.add_comm _ 1, ← Nat.add_assoc, itemsDepth_lt_iff] at h
    rw [rereadAt, reread, Reader.nested, if_pos h.1, rereadItemsAt_eq_map, rereadItems_eq_map]
    exact congrArg _ (List.map_congr_left fun x hx ↦ ih x hx (h.2 x hx))
  | object members ih =>
    rw [Json.depth, Nat.add_comm _ 1, ← Nat.add_assoc, membersDepth_lt_iff] at h
    rw [rereadAt, reread, Reader.nested, if_pos h.1, rereadMembersAt_eq_map, rereadMembers_eq_map]
    exact congrArg _ (List.map_congr_left fun e he ↦ congrArg _ (ih e he (h.2 e he)))

/-- A list or object that holds a value does not stand too deep. -/
theorem nested_of_isSome_value? {depth : Nat} {d : Document}
    (h : (Reader.nested depth d).value?.isSome) :
    depth + 1 < Reader.depthLimit ∧ d.value?.isSome := by
  rw [Reader.nested] at h
  split at h
  · next hlimit => exact ⟨hlimit, h⟩
  · split at h <;> cases h

/-- What holds a value does not nest too deep. -/
theorem depth_lt_of_isSome_value? {j : Json} {depth : Nat} (hdepth : depth < Reader.depthLimit)
    (h : (j.rereadAt depth).value?.isSome) : depth + j.depth < Reader.depthLimit := by
  induction j using Json.induction generalizing depth with
  | null | bool | number | text => exact hdepth
  | list items ih =>
    obtain ⟨hlimit, hitems⟩ := nested_of_isSome_value? h
    rw [Document.value?, Option.isSome_map, rereadItemsAt_eq_map] at hitems
    rw [Json.depth, Nat.add_comm _ 1, ← Nat.add_assoc, itemsDepth_lt_iff]
    exact ⟨hlimit, fun x hx ↦ ih x hx hlimit
      (Document.isSome_value?_of_mem hitems _ (List.mem_map_of_mem hx))⟩
  | object members ih =>
    obtain ⟨hlimit, hmembers⟩ := nested_of_isSome_value? h
    rw [Document.value?, Option.isSome_map, rereadMembersAt_eq_map] at hmembers
    rw [Json.depth, Nat.add_comm _ 1, ← Nat.add_assoc, membersDepth_lt_iff]
    exact ⟨hlimit, fun e he ↦ ih e he hlimit
      (Document.isSome_value?_of_mem_members hmembers _ (List.mem_map_of_mem he))⟩

/-! ### Faults -/

/-- No text that is written breaks the grammar. -/
theorem grammatical_reread (j : Json) : j.reread.grammatical = true := by
  induction j using Json.induction with
  | null | bool | text => rfl
  | number n => rcases n.reread_eq_fault_or with h | ⟨k, h⟩ <;> rw [reread, h] <;> rfl
  | list items ih =>
    rw [reread, Document.grammatical, Document.free, Document.freeItems_eq_all,
      rereadItems_eq_map, List.all_map]
    exact List.all_eq_true.2 ih
  | object members ih =>
    rw [reread, Document.grammatical, Document.free, Document.freeMembers_eq_all,
      rereadMembers_eq_map, List.all_map]
    exact List.all_eq_true.2 ih

theorem sound_reread_list {items : List Json} (h : ∀ x ∈ items, x.reread.sound = true) :
    (list items).reread.sound = true := by
  rw [reread, Document.sound, Document.free, Document.freeItems_eq_all, rereadItems_eq_map,
    List.all_map]
  exact List.all_eq_true.2 h

theorem sound_reread_object {members : List (String × Json)}
    (h : ∀ e ∈ members, e.2.reread.sound = true) : (object members).reread.sound = true := by
  rw [reread, Document.sound, Document.free, Document.freeMembers_eq_all, rereadMembers_eq_map,
    List.all_map]
  exact List.all_eq_true.2 h

/-- What holds a value has no fault. -/
theorem sound_reread_of_isSome_value? {j : Json} (h : j.reread.value?.isSome) :
    j.reread.sound = true := by
  induction j using Json.induction with
  | null | bool | text => rfl
  | number n =>
    rcases n.reread_eq_fault_or with hn | ⟨k, hn⟩
    · rw [reread, hn] at h
      cases h
    · rw [reread, hn]
      rfl
  | list items ih =>
    rw [reread, Document.value?, Option.isSome_map, rereadItems_eq_map] at h
    exact sound_reread_list fun x hx ↦
      ih x hx (Document.isSome_value?_of_mem h _ (List.mem_map_of_mem hx))
  | object members ih =>
    rw [reread, Document.value?, Option.isSome_map, rereadMembers_eq_map] at h
    exact sound_reread_object fun e he ↦
      ih e he (Document.isSome_value?_of_mem_members h _ (List.mem_map_of_mem he))

end Json

end Statechart
