import Statechart.Proofs.Format.Decoded
import Statechart.Proofs.Json.Reader

/-!
# Shorthands

A config knows three shorthands: one item in the place of a list, a target in the place of a
transition, and a name in the place of an action or a guard. `Document.longForm` spells them out
wherever they stand, so that none is left (`Document.spelledOut`). What stands where is told by
`Item.slot`: the fields of a transition, of an invocation and of a state have their own shorthands,
and any other part of a config has none.

A group of fields may be written as an object or as a list of its fields. Where several items may
stand, a list is first tried as these items, and only then as the fields of a single one. Spelling
it out would take such a list of fields apart, so groups have to be written as objects
(`Document.groupsAsObjects`). The long form is then read as the document is:
`MachineConfig.decode_longForm_of_groupsAsObjects`.
-/

namespace Statechart

/-! ### The places of a config -/

/-- What may be written in a place of a config. -/
inductive Item where
  /-- A value that has no shorthand. -/
  | other
  /-- An action or a guard. -/
  | named
  | transition
  | invocation
  | state
  /-- The transitions for each trigger. -/
  | triggers
  /-- The children of a state under their keys. -/
  | children

/-- A place of a config. -/
structure Slot where
  item : Item
  /-- Is there a list of items, for which one alone may stand? -/
  many : Bool

namespace Item

/-- The item on its own. -/
def one (i : Item) : Slot := ⟨i, false⟩

/-- Several items. -/
def several (i : Item) : Slot := ⟨i, true⟩

/-- The place under a label of an object. -/
def slot : Item → Label → Slot
  | .transition, .name "target" => several .other
  | .transition, .name "actions" => several .named
  | .transition, .name "cond" => one .named
  | .invocation, .name "onDone" => several .transition
  | .invocation, .name "onError" => several .transition
  | .state, .name "states" => one .children
  | .state, .name "on" => one .triggers
  | .state, .name "always" => several .transition
  | .state, .name "after" => one .triggers
  | .state, .name "onDone" => several .transition
  | .state, .name "invoke" => several .invocation
  | .state, .name "entry" => several .named
  | .state, .name "exit" => several .named
  | .state, .name "tags" => several .other
  | .triggers, _ => several .transition
  | .children, _ => one .state
  | _, _ => one .other

/-- What a text stands for. -/
def ofText (i : Item) (s : String) : Document :=
  match i with
  | .named => .object [(.name "type", .text s)]
  | .transition => .object [(.name "target", .list [.text s])]
  | _ => .text s

/-- Does a text stand for an object? -/
def fromText : Item → Bool
  | .named | .transition => true
  | _ => false

/-- Is the item a group of fields? -/
def isGroup : Item → Bool
  | .transition | .invocation | .state => true
  | _ => false

/-- Can the document stand for the item in a list of several? -/
def accepts : Item → Document → Bool
  | .transition => fun d ↦ (TransitionConfig.decodeShort d).isOk
  | .invocation => fun d ↦ (InvocationConfig.decode d).isOk
  | _ => fun _ ↦ true

end Item

/-- What one item is written as. -/
def Slot.wrap (p : Slot) (d : Document) : Document := if p.many then .list [d] else d

namespace Document

mutual

/-- The document of a config with all shorthands spelled out. -/
def longForm (p : Slot) : Document → Document
  | .text s => p.wrap (p.item.ofText s)
  | .list ds => .list (if p.many then longItems p.item ds else ds)
  | .object ms => p.wrap (.object (longMembers p.item ms))
  | d => p.wrap d

/-- The long forms of the items of a list. -/
def longItems (i : Item) : List Document → List Document
  | [] => []
  | d :: ds => longForm i.one d :: longItems i ds

/-- The long forms of the members of an object. -/
def longMembers (i : Item) : List (Label × Document) → List (Label × Document)
  | [] => []
  | (l, d) :: ms => (l, longForm (i.slot l) d) :: longMembers i ms

end

mutual

/-- Is there no shorthand left in the document? -/
def spelledOut (p : Slot) : Document → Bool
  | .text _ => !p.many && !p.item.fromText
  | .list ds => !p.many || itemsSpelledOut p.item ds
  | .object ms => !p.many && membersSpelledOut p.item ms
  | _ => !p.many

/-- Is there no shorthand left in the items of a list? -/
def itemsSpelledOut (i : Item) : List Document → Bool
  | [] => true
  | d :: ds => spelledOut i.one d && itemsSpelledOut i ds

/-- Is there no shorthand left in the members of an object? -/
def membersSpelledOut (i : Item) : List (Label × Document) → Bool
  | [] => true
  | (l, d) :: ms => spelledOut (i.slot l) d && membersSpelledOut i ms

end

mutual

/-- Is every group of fields written as an object? If some item of a list cannot be read as one of
several, the list is not these items but the fields of a single one. -/
def groupsAsObjects (p : Slot) : Document → Bool
  | .list ds =>
    if p.many then ds.all p.item.accepts && itemsGroupsAsObjects p.item ds else !p.item.isGroup
  | .object ms => membersGroupsAsObjects p.item ms
  | _ => true

/-- Is every group of fields in the items of a list written as an object? -/
def itemsGroupsAsObjects (i : Item) : List Document → Bool
  | [] => true
  | d :: ds => groupsAsObjects i.one d && itemsGroupsAsObjects i ds

/-- Is every group of fields in the members of an object written as an object? -/
def membersGroupsAsObjects (i : Item) : List (Label × Document) → Bool
  | [] => true
  | (l, d) :: ms => groupsAsObjects (i.slot l) d && membersGroupsAsObjects i ms

end

theorem longItems_eq_map (i : Item) (ds : List Document) :
    longItems i ds = ds.map (longForm i.one) := by
  induction ds with
  | nil => rfl
  | cons d ds ih => rw [longItems, ih, List.map_cons]

theorem longMembers_eq_map (i : Item) (ms : List (Label × Document)) :
    longMembers i ms = ms.map fun e ↦ (e.1, e.2.longForm (i.slot e.1)) := by
  induction ms with
  | nil => rfl
  | cons e ms ih => rw [longMembers, ih, List.map_cons]

theorem itemsSpelledOut_eq_all (i : Item) (ds : List Document) :
    itemsSpelledOut i ds = ds.all (spelledOut i.one) := by
  induction ds with
  | nil => rfl
  | cons d ds ih => rw [itemsSpelledOut, ih, List.all_cons]

theorem membersSpelledOut_eq_all (i : Item) (ms : List (Label × Document)) :
    membersSpelledOut i ms = ms.all fun e ↦ e.2.spelledOut (i.slot e.1) := by
  induction ms with
  | nil => rfl
  | cons e ms ih => rw [membersSpelledOut, ih, List.all_cons]

theorem itemsGroupsAsObjects_eq_all (i : Item) (ds : List Document) :
    itemsGroupsAsObjects i ds = ds.all (groupsAsObjects i.one) := by
  induction ds with
  | nil => rfl
  | cons d ds ih => rw [itemsGroupsAsObjects, ih, List.all_cons]

theorem membersGroupsAsObjects_eq_all (i : Item) (ms : List (Label × Document)) :
    membersGroupsAsObjects i ms = ms.all fun e ↦ e.2.groupsAsObjects (i.slot e.1) := by
  induction ms with
  | nil => rfl
  | cons e ms ih => rw [membersGroupsAsObjects, ih, List.all_cons]

/-- Outside of the places of a config nothing is a shorthand. -/
theorem longForm_other (d : Document) : d.longForm Item.other.one = d := by
  induction d using Document.induction with
  | step d ih =>
    cases d with
    | object ms =>
      have hmembers : longMembers .other ms = ms := by
        rw [longMembers_eq_map]
        refine (List.map_congr_left fun e he ↦ ?_).trans (List.map_id' ms)
        have hslot : Item.other.slot e.1 = Item.other.one := rfl
        rw [hslot, ih e.2 (List.mem_map_of_mem he)]
      show longForm Item.other.one (.object ms) = .object ms
      rw [longForm, Item.one, hmembers]
      rfl
    | _ => rfl

theorem free_wrap (allowed : Fault → Bool) (p : Slot) (d : Document) :
    (p.wrap d).free allowed = d.free allowed := by
  rw [Slot.wrap]
  split
  · rw [free, freeItems, freeItems, Bool.and_true]
  · rfl

/-- Spelling out a document neither adds nor removes a fault. -/
theorem free_longForm (allowed : Fault → Bool) (p : Slot) (d : Document) :
    (d.longForm p).free allowed = d.free allowed := by
  induction d using Document.induction generalizing p with
  | step d ih =>
    cases d with
    | text s =>
      rw [longForm, free_wrap]
      cases p.item <;> rfl
    | list ds =>
      rw [longForm]
      split
      · rw [free, free, freeItems_eq_all, freeItems_eq_all, longItems_eq_map, List.all_map,
          Bool.eq_iff_iff, List.all_eq_true, List.all_eq_true]
        exact forall₂_congr fun e he ↦ by rw [Function.comp_apply, ih e he]
      · rfl
    | object ms =>
      rw [longForm, free_wrap, free, free, freeMembers_eq_all, freeMembers_eq_all,
        longMembers_eq_map, List.all_map, Bool.eq_iff_iff, List.all_eq_true, List.all_eq_true]
      exact forall₂_congr fun e he ↦ by
        rw [Function.comp_apply, ih e.2 (List.mem_map_of_mem he)]
    | _ => exact free_wrap allowed p _

theorem sound_longForm (p : Slot) (d : Document) : (d.longForm p).sound = d.sound :=
  free_longForm _ p d

theorem grammatical_longForm (p : Slot) (d : Document) :
    (d.longForm p).grammatical = d.grammatical := free_longForm _ p d

/-- What is not a list stands for a single item. -/
theorem longForm_several {d : Document} (h : ∀ ds, d ≠ .list ds) (i : Item) :
    d.longForm i.several = .list [d.longForm i.one] := by
  cases d with
  | list ds => exact absurd rfl (h ds)
  | _ => rfl

theorem groupsAsObjects_several {d : Document} (h : ∀ ds, d ≠ .list ds) (i : Item) :
    d.groupsAsObjects i.several = d.groupsAsObjects i.one := by
  cases d with
  | list ds => exact absurd rfl (h ds)
  | _ => rfl

/-- **No shorthand is left in a long form.** -/
theorem spelledOut_longForm (p : Slot) (d : Document) : (d.longForm p).spelledOut p = true := by
  have hwrap : ∀ (p : Slot) (d : Document), (p.wrap d).spelledOut p = d.spelledOut p.item.one := by
    rintro ⟨i, many⟩ d
    cases many with
    | false => rfl
    | true => exact Bool.and_true _
  induction d using Document.induction generalizing p with
  | step d ih =>
    cases d with
    | text s =>
      rw [longForm, hwrap]
      cases p.item <;> rfl
    | list ds =>
      obtain ⟨i, many⟩ := p
      cases many with
      | false => rfl
      | true =>
        have hitems : itemsSpelledOut i (longItems i ds) = true := by
          rw [itemsSpelledOut_eq_all, longItems_eq_map, List.all_map, List.all_eq_true]
          exact fun e he ↦ ih e he i.one
        exact hitems
    | object ms =>
      have hmembers : membersSpelledOut p.item (longMembers p.item ms) = true := by
        rw [membersSpelledOut_eq_all, longMembers_eq_map, List.all_map, List.all_eq_true]
        exact fun e he ↦ ih e.2 (List.mem_map_of_mem he) (p.item.slot e.1)
      rw [longForm, hwrap]
      exact hmembers
    | _ => exact hwrap p _

end Document

/-! ### Ways of decoding -/

namespace Decoding

open Document

variable {α : Type} {read : Document → Decoded α} {i : Item}

theorem oneOrMany_eq_ok_iff {d : Document} {xs : List α} : oneOrMany read d = .ok xs ↔
    d.sound = true ∧ (list read d = .ok xs ∨
      (∀ ys, list read d ≠ .ok ys) ∧ ∃ x, read d = .ok x ∧ [x] = xs) := by
  rw [oneOrMany]
  cases d.sound with
  | false => exact iff_of_false (by simp) (by simp)
  | true =>
    cases list read d with
    | ok ys => simp
    | error e => cases read d <;> simp

theorem exists_of_all_isOk {ds : List Document} (h : (ds.all fun d ↦ (read d).isOk) = true) :
    ∃ xs, all read ds = .ok xs := by
  induction ds with
  | nil => exact ⟨[], rfl⟩
  | cons d ds ih =>
    rw [List.all_cons, Bool.and_eq_true] at h
    obtain ⟨xs, hxs⟩ := ih h.2
    cases hd : read d with
    | error e => rw [hd] at h; cases h.1
    | ok x => exact ⟨x :: xs, by rw [all, hd, hxs]; rfl⟩

theorem all_longItems {ds : List Document} {xs : List α}
    (hread : ∀ d ∈ ds, ∀ x, read d = .ok x → read (d.longForm i.one) = .ok x)
    (h : all read ds = .ok xs) : all read (longItems i ds) = .ok xs := by
  induction ds generalizing xs with
  | nil => exact h
  | cons d ds ih =>
    obtain ⟨hfirst, hrest⟩ := List.forall_mem_cons.1 hread
    obtain ⟨x, hx, h⟩ := exists_of_bind h
    obtain ⟨others, hothers, rfl⟩ := exists_of_bind_pure h
    rw [longItems, all, hfirst x hx, ih hrest hothers]
    rfl

/-- **A list or a single item.** If single items are read as their long forms, so is either of the
two, provided that no list is read as a single item only. -/
theorem oneOrMany_longForm {d : Document} {xs : List α}
    (hread : ∀ d : Document, d.groupsAsObjects i.one = true → ∀ x, read d = .ok x →
      read (d.longForm i.one) = .ok x)
    (hlist : ∀ ds, ds.all i.accepts = true → ∀ x, read (.list ds) = .ok x →
      ∃ ys, all read ds = .ok ys)
    (hd : d.groupsAsObjects i.several = true) (h : oneOrMany read d = .ok xs) :
    oneOrMany read (d.longForm i.several) = .ok xs := by
  obtain ⟨hsound, h⟩ := oneOrMany_eq_ok_iff.1 h
  rw [oneOrMany_eq_ok_iff, sound_longForm]
  refine ⟨hsound, .inl ?_⟩
  by_cases hd' : ∃ ds, d = .list ds
  · obtain ⟨ds, rfl⟩ := hd'
    rw [groupsAsObjects, Item.several, if_pos rfl, Bool.and_eq_true,
      itemsGroupsAsObjects_eq_all] at hd
    have hall : all read ds = .ok xs := by
      rcases h with h | ⟨hnone, x, hx, -⟩
      · exact h
      · obtain ⟨ys, hys⟩ := hlist ds hd.1 x hx
        exact absurd hys (hnone ys)
    exact all_longItems (fun d hmem ↦ hread d (List.all_eq_true.1 hd.2 d hmem)) hall
  · have hne : ∀ ds, d ≠ .list ds := fun ds heq ↦ hd' ⟨ds, heq⟩
    rw [groupsAsObjects_several hne] at hd
    rcases h with h | ⟨-, x, hx, rfl⟩
    · cases d with
      | list ds => exact absurd rfl (hne ds)
      | _ => cases h
    · rw [longForm_several hne, list, all, hread d hd x hx]
      rfl

variable {p : Slot}

theorem allEntries_longMembers {ms : List (Label × Document)} {kept es : List (String × α)}
    (hslot : ∀ l, i.slot l = p)
    (hread : ∀ d ∈ ms.map Prod.snd, ∀ x, read d = .ok x → read (d.longForm p) = .ok x)
    (h : allEntries read kept ms = .ok es) : allEntries read kept (longMembers i ms) = .ok es := by
  induction ms generalizing kept with
  | nil => exact h
  | cons e ms ih =>
    obtain ⟨l, d⟩ := e
    obtain ⟨hfirst, hrest⟩ := List.forall_mem_cons.1 hread
    cases l with
    | fault => cases h
    | name k =>
      obtain ⟨x, hx, h⟩ := exists_of_bind h
      rw [longMembers, allEntries, hslot, hfirst x hx]
      exact ih hrest h

/-- **A map.** The same may stand under each of its keys. -/
theorem entries_longForm {d : Document} {es : List (String × α)} (hslot : ∀ l, i.slot l = p)
    (hread : ∀ e ∈ d.parts, e.groupsAsObjects p = true → ∀ x, read e = .ok x →
      read (e.longForm p) = .ok x)
    (hd : d.groupsAsObjects i.one = true) (h : entries read d = .ok es) :
    entries read (d.longForm i.one) = .ok es := by
  cases d with
  | object ms =>
    rw [groupsAsObjects, Item.one, membersGroupsAsObjects_eq_all, List.all_eq_true] at hd
    refine allEntries_longMembers hslot (fun e he ↦ hread e he ?_) h
    obtain ⟨m, hm, rfl⟩ := List.mem_map.1 he
    rw [← hslot m.1]
    exact hd m hm
  | _ => cases h

end Decoding

namespace Record

open Document

variable {α : Type} {r : Record α} {i : Item} {x y : α}

/-- **A group of fields.** If each field is read as its long form, so is the group. What is skipped
can still be skipped. -/
theorem members_longMembers {ms : List (Label × Document)} {seen : List String}
    (hput : ∀ d ∈ ms.map Prod.snd, ∀ name, d.groupsAsObjects (i.slot (.name name)) = true →
      ∀ x y, r.put name d x = .ok y → r.put name (d.longForm (i.slot (.name name))) x = .ok y)
    (hms : membersGroupsAsObjects i ms = true) (h : r.members seen x ms = .ok y) :
    r.members seen x (longMembers i ms) = .ok y := by
  induction ms generalizing seen x with
  | nil => exact h
  | cons e ms ih =>
    obtain ⟨l, d⟩ := e
    obtain ⟨hfirst, hrest⟩ := List.forall_mem_cons.1 hput
    rw [membersGroupsAsObjects, Bool.and_eq_true] at hms
    cases l with
    | fault => cases h
    | name k =>
      rw [members] at h
      rw [longMembers, members, grammatical_longForm]
      split at h
      · next hk =>
        split at h
        · cases h
        · next hseen =>
          obtain ⟨z, hz, h⟩ := Decoding.exists_of_bind h
          rw [if_pos hk, if_neg hseen, hfirst k hms.1 x z hz]
          exact ih hrest hms.2 h
      · next hk =>
        split at h
        · next hd =>
          rw [if_neg hk, if_pos hd]
          exact ih hrest hms.2 h
        · cases h

end Record

open Decoding Document

/-! ### Actions and guards -/

namespace Document

/-- A name becomes an object, anything else stays as it is. -/
theorem longForm_named (d : Document) :
    (∃ s, d = .text s ∧ d.longForm Item.named.one = .object [(.name "type", .text s)]) ∨
      d.longForm Item.named.one = d := by
  cases d with
  | text s => exact .inl ⟨s, rfl, rfl⟩
  | object ms =>
    -- the members of an action have no shorthands
    have hmembers : longMembers .named ms = longMembers .other ms := by
      rw [longMembers_eq_map, longMembers_eq_map]
      rfl
    have hother := longForm_other (.object ms)
    rw [longForm] at hother ⊢
    exact .inr ((congrArg object hmembers).trans hother)
  | _ => exact .inr rfl

end Document

theorem Action.decodeShort_longForm (d : Document) :
    decodeShort (d.longForm Item.named.one) = decodeShort d := by
  obtain ⟨s, rfl, h⟩ | h := longForm_named d
  · rw [h]
    rfl
  · rw [h]

theorem Guard.decodeChoice_longForm (d : Document) :
    decodeChoice (d.longForm Item.named.one) = decodeChoice d := by
  have hshort : decodeShort (d.longForm Item.named.one) = decodeShort d := by
    obtain ⟨s, rfl, h⟩ | h := longForm_named d
    · rw [h]
      rfl
    · rw [h]
  rw [decodeChoice, hshort, sound_longForm, decodeChoice]

namespace Decoding

variable {d : Document}

theorem texts_longForm {ss : List String} (hd : d.groupsAsObjects Item.other.several = true)
    (h : oneOrMany text d = .ok ss) : oneOrMany text (d.longForm Item.other.several) = .ok ss :=
  oneOrMany_longForm (fun d _ s hs ↦ by rwa [longForm_other]) (fun _ _ _ hs ↦ by cases hs) hd h

theorem actions_longForm {as : List Action} (hd : d.groupsAsObjects Item.named.several = true)
    (h : oneOrMany Action.decodeShort d = .ok as) :
    oneOrMany Action.decodeShort (d.longForm Item.named.several) = .ok as :=
  oneOrMany_longForm (fun d _ a ha ↦ by rwa [Action.decodeShort_longForm])
    (fun _ _ _ ha ↦ by cases ha) hd h

end Decoding

/-! ### Transitions and invocations -/

namespace Decoding

variable {α β : Type}

/-- What is done with a value does not depend on how it was written. -/
theorem bind_pure_eq_ok {m n : Decoded α} {f : α → β} {y : β}
    (h : (m >>= fun v ↦ pure (f v)) = .ok y) (hmn : ∀ v, m = .ok v → n = .ok v) :
    (n >>= fun v ↦ pure (f v)) = .ok y := by
  obtain ⟨v, hv, rfl⟩ := exists_of_bind_pure h
  rw [hmn v hv]
  rfl

end Decoding

namespace Item

variable {name : String}

theorem slot_transition (h : name ∉ ["target", "actions", "cond"]) :
    transition.slot (.name name) = one .other := by
  unfold slot
  split <;> simp_all

theorem slot_invocation (h : name ∉ ["onDone", "onError"]) :
    invocation.slot (.name name) = one .other := by
  unfold slot
  split <;> simp_all

theorem slot_state
    (h : name ∉ ["states", "on", "always", "after", "onDone", "invoke", "entry", "exit", "tags"]) :
    state.slot (.name name) = one .other := by
  unfold slot
  split <;> simp_all

end Item

namespace TransitionConfig

theorem put_longForm {name : String} {d : Document}
    (hd : d.groupsAsObjects (Item.transition.slot (.name name)) = true) {t u : TransitionConfig}
    (h : record.put name d t = .ok u) :
    record.put name (d.longForm (Item.transition.slot (.name name))) t = .ok u := by
  by_cases hname : name ∈ ["target", "actions", "cond"]
  · simp only [List.mem_cons, List.not_mem_nil, or_false] at hname
    rcases hname with rfl | rfl | rfl
    · exact bind_pure_eq_ok h fun _ ↦ texts_longForm hd
    · exact bind_pure_eq_ok h fun _ ↦ actions_longForm hd
    · exact bind_pure_eq_ok h fun _ ↦ (Guard.decodeChoice_longForm d).trans
  · rwa [Item.slot_transition hname, longForm_other]

theorem decodeShort_longForm {d : Document} (hd : d.groupsAsObjects Item.transition.one = true)
    {t : TransitionConfig} (h : decodeShort d = .ok t) :
    decodeShort (d.longForm Item.transition.one) = .ok t := by
  cases d with
  | text s => exact h
  | object ms => exact Record.members_longMembers (fun _ _ _ he _ _ ↦ put_longForm he) hd h
  | list ds => cases hd
  | _ => cases h

theorem decodeList_longForm {d : Document} (hd : d.groupsAsObjects Item.transition.several = true)
    {ts : List TransitionConfig} (h : decodeList d = .ok ts) :
    decodeList (d.longForm Item.transition.several) = .ok ts :=
  oneOrMany_longForm (fun _ hd _ ↦ decodeShort_longForm hd) (fun _ hds _ _ ↦ exists_of_all_isOk hds)
    hd h

end TransitionConfig

namespace InvocationConfig

theorem put_longForm {name : String} {d : Document}
    (hd : d.groupsAsObjects (Item.invocation.slot (.name name)) = true) {i j : InvocationConfig}
    (h : record.put name d i = .ok j) :
    record.put name (d.longForm (Item.invocation.slot (.name name))) i = .ok j := by
  by_cases hname : name ∈ ["onDone", "onError"]
  · simp only [List.mem_cons, List.not_mem_nil, or_false] at hname
    rcases hname with rfl | rfl
    · exact bind_pure_eq_ok h fun _ ↦ TransitionConfig.decodeList_longForm hd
    · exact bind_pure_eq_ok h fun _ ↦ TransitionConfig.decodeList_longForm hd
  · rwa [Item.slot_invocation hname, longForm_other]

theorem decode_longForm {d : Document} (hd : d.groupsAsObjects Item.invocation.one = true)
    {i : InvocationConfig} (h : decode d = .ok i) :
    decode (d.longForm Item.invocation.one) = .ok i := by
  cases d with
  | object ms => exact Record.members_longMembers (fun _ _ _ he _ _ ↦ put_longForm he) hd h
  | list ds => cases hd
  | _ => cases h

end InvocationConfig

/-! ### States -/

namespace StateConfig

variable {medium : Medium}

theorem putField_longForm {name : String} {d : Document} (hstates : name ≠ "states")
    (hd : d.groupsAsObjects (Item.state.slot (.name name)) = true) {f g : ConfigFacets}
    (h : putField medium name d f = .ok g) :
    putField medium name (d.longForm (Item.state.slot (.name name))) f = .ok g := by
  have htriggers : ∀ {es : List (String × List TransitionConfig)},
      d.groupsAsObjects Item.triggers.one = true →
        entries TransitionConfig.decodeList d = .ok es →
          entries TransitionConfig.decodeList (d.longForm Item.triggers.one) = .ok es :=
    entries_longForm (fun _ ↦ rfl) fun _ _ he _ ↦ TransitionConfig.decodeList_longForm he
  by_cases hname : name ∈ ["on", "always", "after", "onDone", "invoke", "entry", "exit", "tags"]
  · simp only [List.mem_cons, List.not_mem_nil, or_false] at hname
    rcases hname with rfl | rfl | rfl | rfl | rfl | rfl | rfl | rfl
    · exact bind_pure_eq_ok h fun _ ↦ htriggers hd
    · exact bind_pure_eq_ok h fun _ ↦ TransitionConfig.decodeList_longForm hd
    · exact bind_pure_eq_ok h fun _ ↦ htriggers hd
    · exact bind_pure_eq_ok h fun _ ↦ TransitionConfig.decodeList_longForm hd
    · exact bind_pure_eq_ok h fun _ ↦ oneOrMany_longForm
        (fun _ he _ ↦ InvocationConfig.decode_longForm he)
        (fun _ hds _ _ ↦ exists_of_all_isOk hds) hd
    · exact bind_pure_eq_ok h fun _ ↦ actions_longForm hd
    · exact bind_pure_eq_ok h fun _ ↦ actions_longForm hd
    · exact bind_pure_eq_ok h fun _ ↦ texts_longForm hd
  · rwa [Item.slot_state fun hmem ↦ (List.mem_cons.1 hmem).elim hstates hname, longForm_other]

/-- The children are read as their long forms if each of them is. -/
theorem put_longForm {name : String} {d : Document}
    (hchildren : ∀ e ∈ d.parts, e.groupsAsObjects Item.state.one = true →
      ∀ c, decode medium e = .ok c → decode medium (e.longForm Item.state.one) = .ok c)
    (hd : d.groupsAsObjects (Item.state.slot (.name name)) = true) {b c : StateConfig}
    (h : (record medium).put name d b = .ok c) :
    (record medium).put name (d.longForm (Item.state.slot (.name name))) b = .ok c := by
  by_cases hname : name = "states"
  · subst hname
    exact bind_pure_eq_ok h fun _ ↦ entries_longForm (fun _ ↦ rfl) hchildren hd
  · rw [put_facet medium hname] at h ⊢
    exact bind_pure_eq_ok h fun _ ↦ putField_longForm hname hd

/-- **The long form of a state is read as the state.** Children stand in the parts of the parts of a
document, so both are taken along. -/
theorem decode_longForm {d : Document} :
    (d.groupsAsObjects Item.state.one = true → ∀ c, decode medium d = .ok c →
      decode medium (d.longForm Item.state.one) = .ok c) ∧
      ∀ e ∈ d.parts, e.groupsAsObjects Item.state.one = true → ∀ c, decode medium e = .ok c →
        decode medium (e.longForm Item.state.one) = .ok c := by
  induction d using Document.induction with
  | step d ih =>
    refine ⟨fun hd c h ↦ ?_, fun e he ↦ (ih e he).1⟩
    cases d with
    | object ms =>
      rw [decode_eq] at h ⊢
      exact Record.members_longMembers
        (fun e he _ hgroups _ _ ↦ put_longForm (ih e he).2 hgroups) hd h
    | list ds => cases hd
    | _ =>
      rw [decode_eq] at h
      cases h

end StateConfig

/-! ### Machines -/

namespace MachineConfig

/-- The context is none of the places of a state, and what is held for the root can still be. -/
theorem readContext_longMembers (found : Option Json) (ms : List (Label × Document)) :
    readContext found (longMembers .state ms) = readContext found ms := by
  induction ms generalizing found with
  | nil => rfl
  | cons e ms ih =>
    obtain ⟨l, d⟩ := e
    cases l with
    | fault => rfl
    | name k =>
      rw [longMembers, readContext, readContext, sound_longForm]
      by_cases hk : k = "context"
      · subst hk
        have hslot : Item.state.slot (.name "context") = Item.other.one :=
          Item.slot_state (by decide)
        simp only [hslot, longForm_other, ih]
      · simp only [if_neg hk, ih]

/-- **Shorthands mean their long forms.** If a config is read from a document whose groups of fields
are written as objects, the same config is read from the document with all shorthands spelled out.
There are none left in it. -/
theorem decode_longForm_of_groupsAsObjects {d : Document}
    (hd : d.groupsAsObjects Item.state.one = true) {c : MachineConfig} (h : decode d = .ok c) :
    decode (d.longForm Item.state.one) = .ok c ∧
      (d.longForm Item.state.one).spelledOut Item.state.one = true := by
  refine ⟨?_, spelledOut_longForm _ d⟩
  cases d with
  | object ms =>
    obtain ⟨context, hcontext, h⟩ := exists_of_bind h
    obtain ⟨root, hroot, rfl⟩ := exists_of_bind_pure h
    rw [StateConfig.decodeMembers_eq] at hroot
    have hlong : (StateConfig.record .held).members [] .empty (longMembers .state ms) = .ok root :=
      Record.members_longMembers (fun _ _ _ hgroups _ _ ↦
        StateConfig.put_longForm StateConfig.decode_longForm.2 hgroups) hd hroot
    show decode (.object (longMembers .state ms)) = _
    rw [decode, readContext_longMembers, hcontext, StateConfig.decodeMembers_eq, hlong]
    rfl
  | _ => cases h

end MachineConfig

/-- A parcel on its way. It has a single transition with a single action in a single invocation of a
child. -/
def Document.parcel : Document :=
  .object [
    (.name "tags", .text "small"),
    (.name "states", .object [
      (.name "sent", .object [
        (.name "invoke", .object [
          (.name "src", .text "track"),
          (.name "onDone", .object [
            (.name "target", .text "home"),
            (.name "actions", .text "sign"),
            (.name "cond", .text "paid")])]),
        (.name "on", .object [
          (.name "lose", .text "lost"),
          (.name "send", .list [
            .text "sent",
            .object [(.name "actions", .list [.text "log"])]])])]),
      (.name "home", .object [])]),
    (.name "context", .object [(.name "target", .text "home")])]

theorem MachineConfig.decode_longForm_of_groupsAsObjects_parcel :
    parcel.groupsAsObjects Item.state.one = true ∧
      parcel.longForm Item.state.one =
        .object [
          (.name "tags", .list [.text "small"]),
          (.name "states", .object [
            (.name "sent", .object [
              (.name "invoke", .list [.object [
                (.name "src", .text "track"),
                (.name "onDone", .list [.object [
                  (.name "target", .list [.text "home"]),
                  (.name "actions", .list [.object [(.name "type", .text "sign")]]),
                  (.name "cond", .object [(.name "type", .text "paid")])]])]]),
              (.name "on", .object [
                (.name "lose", .list [.object [(.name "target", .list [.text "lost"])]]),
                (.name "send", .list [
                  .object [(.name "target", .list [.text "sent"])],
                  .object [(.name "actions", .list [
                    .object [(.name "type", .text "log")]])]])])]),
            (.name "home", .object [])]),
          (.name "context", .object [(.name "target", .text "home")])] ∧
      ∃ c, decode parcel = .ok c ∧ decode (parcel.longForm Item.state.one) = .ok c ∧
        (parcel.longForm Item.state.one).spelledOut Item.state.one = true := by
  have hgroups : parcel.groupsAsObjects Item.state.one = true := by decide +kernel
  have hok : (decode parcel).isOk = true := by decide +kernel
  cases h : decode parcel with
  | error e => rw [h] at hok; cases hok
  | ok c => exact ⟨hgroups, rfl, c, rfl, decode_longForm_of_groupsAsObjects hgroups h⟩

/-- A transition that is written as the list of its fields is not spelled out as one. -/
example :
    let d : Document := .object [(.name "always",
      .list [.text "send", .text "home", .text "sign", .text "paid", .number (.int 5)])]
    d.groupsAsObjects Item.state.one = false ∧ (MachineConfig.decode d).isOk = true ∧
      (MachineConfig.decode (d.longForm Item.state.one)).isOk = false := by
  decide +kernel

end Statechart
