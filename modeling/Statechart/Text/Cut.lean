/-!
# Cutting text

Cutting a known beginning off a text. `Text.after?` answers what follows the beginning, and
`after?_eq_some_iff` says that it answers exactly when the text starts with it.

Cutting a text at a mark. `Text.cuts` lists every way to do so (`mem_cuts_iff`), the longest front
first (`pairwise_cuts`). `Text.split` cuts at all marks at once, and what it gives is known without
the way it goes about it (`split_eq_iff`).
-/

namespace Statechart

namespace Text

/-- What is left of `cs` once `lead` is cut off its front, if `cs` starts with `lead`. -/
def dropLead? : List Char → List Char → Option (List Char)
  | [], cs => some cs
  | _ :: _, [] => none
  | l :: lead, c :: cs => if l = c then dropLead? lead cs else none

/-- What follows `lead` in `s`, if `s` starts with it. -/
def after? (lead s : String) : Option String :=
  (dropLead? lead.toList s.toList).map String.ofList

/-- Does `s` start with `lead`? -/
def startsWith (lead s : String) : Bool := (dropLead? lead.toList s.toList).isSome

/-- The stretches of `cs` between the occurrences of `mark`: one more than there are marks. -/
def splitChars (mark : Char) : List Char → List (List Char)
  | [] => [[]]
  | c :: cs =>
    if c = mark then [] :: splitChars mark cs
    else
      match splitChars mark cs with
      | [] => [[c]]
      | first :: rest => (c :: first) :: rest

/-- The stretches of `s` between the occurrences of `mark`. -/
def split (mark : Char) (s : String) : List String :=
  (splitChars mark s.toList).map String.ofList

/-- Every way to cut `cs` at an occurrence of `mark`, which is left out; later ones first. -/
def cutsChars (mark : Char) : List Char → List (List Char × List Char)
  | [] => []
  | c :: cs =>
    let later := (cutsChars mark cs).map fun (front, back) ↦ (c :: front, back)
    if c = mark then later ++ [([], cs)] else later

/-- Every way to cut `s` at an occurrence of `mark`, which is left out; later ones first. -/
def cuts (mark : Char) (s : String) : List (String × String) :=
  (cutsChars mark s.toList).map fun (front, back) ↦ (String.ofList front, String.ofList back)

/-- The text without the marks at its front. -/
def trimLead (mark : Char) (s : String) : String := String.ofList (s.toList.dropWhile (· == mark))

/-! ### Laws -/

theorem dropLead?_eq_some_iff {lead cs rest : List Char} :
    dropLead? lead cs = some rest ↔ cs = lead ++ rest := by
  induction lead generalizing cs with
  | nil => simp [dropLead?]
  | cons l lead ih =>
    cases cs with
    | nil => simp [dropLead?]
    | cons c cs =>
      by_cases h : l = c
      · subst h
        simp [dropLead?, ih]
      · simp [dropLead?, h, Ne.symm h]

/-- `after?` answers exactly when the text is the beginning and then the answer. -/
theorem after?_eq_some_iff {lead s rest : String} :
    after? lead s = some rest ↔ s = lead ++ rest := by
  rw [after?, Option.map_eq_some_iff]
  constructor
  · rintro ⟨cs, h, rfl⟩
    rw [dropLead?_eq_some_iff] at h
    apply String.toList_injective
    simp [h]
  · intro h
    subst h
    exact ⟨rest.toList, by simp [dropLead?_eq_some_iff], by simp⟩

theorem startsWith_eq_isSome (lead s : String) : startsWith lead s = (after? lead s).isSome := by
  simp [startsWith, after?]

theorem startsWith_iff {lead s : String} :
    startsWith lead s = true ↔ ∃ rest, s = lead ++ rest := by
  rw [startsWith_eq_isSome, Option.isSome_iff_exists]
  simp [after?_eq_some_iff]

/-! ### Cuts -/

theorem mem_cutsChars_iff {mark : Char} {cs front back : List Char} :
    (front, back) ∈ cutsChars mark cs ↔ cs = front ++ mark :: back := by
  induction cs generalizing front with
  | nil => simp [cutsChars]
  | cons c cs ih =>
    -- a cut is made after the first character, or right before it
    have hlater : (front, back) ∈ (cutsChars mark cs).map (fun (a, b) ↦ (c :: a, b)) ↔
        ∃ rest, front = c :: rest ∧ cs = rest ++ mark :: back := by
      simp only [List.mem_map, Prod.mk.injEq, Prod.exists]
      constructor
      · rintro ⟨a, b, hmem, rfl, rfl⟩
        exact ⟨a, rfl, ih.1 hmem⟩
      · rintro ⟨rest, rfl, hcs⟩
        exact ⟨rest, back, ih.2 hcs, rfl, rfl⟩
    have hcons : c :: cs = front ++ mark :: back ↔
        (front = [] ∧ c = mark ∧ cs = back) ∨
          ∃ rest, front = c :: rest ∧ cs = rest ++ mark :: back := by
      cases front with
      | nil => simp
      | cons d rest =>
        simp only [List.cons_append, List.cons.injEq, reduceCtorEq, false_and, false_or]
        constructor
        · rintro ⟨h, hcs⟩
          exact ⟨rest, ⟨h.symm, rfl⟩, hcs⟩
        · rintro ⟨_, ⟨h, rfl⟩, hcs⟩
          exact ⟨h.symm, hcs⟩
    rw [cutsChars, hcons, ← hlater]
    by_cases h : c = mark
    · simp [h, eq_comm, or_comm]
    · simp [h]

/-- Cuts further to the right come first. -/
theorem pairwise_cutsChars (mark : Char) (cs : List Char) :
    (cutsChars mark cs).Pairwise fun a b ↦ b.1.length < a.1.length := by
  induction cs with
  | nil => exact .nil
  | cons c cs ih =>
    have hlater : ((cutsChars mark cs).map fun (a, b) ↦ (c :: a, b)).Pairwise
        fun a b ↦ b.1.length < a.1.length :=
      List.pairwise_map.2 (ih.imp fun h ↦ Nat.succ_lt_succ h)
    rw [cutsChars]
    split
    · refine List.pairwise_append.2 ⟨hlater, List.pairwise_singleton _ _, ?_⟩
      intro a ha b hb
      obtain ⟨x, -, rfl⟩ := List.mem_map.1 ha
      rw [List.mem_singleton.1 hb]
      exact Nat.succ_pos _
    · exact hlater

/-- The cuts of a text are the ways to write it with a mark in it. -/
theorem mem_cuts_iff {mark : Char} {s front back : String} :
    (front, back) ∈ cuts mark s ↔ s = front ++ String.singleton mark ++ back := by
  have hlist : s = front ++ String.singleton mark ++ back ↔
      s.toList = front.toList ++ mark :: back.toList := by
    rw [← String.toList_inj]
    simp
  rw [hlist, ← mem_cutsChars_iff, cuts, List.mem_map]
  constructor
  · rintro ⟨⟨a, b⟩, hmem, heq⟩
    obtain ⟨rfl, rfl⟩ := Prod.mk.inj heq
    simpa using hmem
  · intro hmem
    exact ⟨_, hmem, by simp⟩

theorem pairwise_cuts (mark : Char) (s : String) :
    (cuts mark s).Pairwise fun a b ↦ b.1.length < a.1.length := by
  refine List.pairwise_map.2 ((pairwise_cutsChars mark s.toList).imp fun h ↦ ?_)
  simpa using h

/-- Searching the cuts finds the longest front that has an answer. -/
theorem findSome?_cuts_eq_some_iff {α : Type} {mark : Char} {s keys : String}
    {answer? : String → Option α} {a : α} :
    ((cuts mark s).findSome? fun (front, back) ↦ (answer? front).map (·, back)) = some (a, keys) ↔
      ∃ front, s = front ++ String.singleton mark ++ keys ∧ answer? front = some a ∧
        ∀ front' keys', s = front' ++ String.singleton mark ++ keys' → (answer? front').isSome →
          front'.length ≤ front.length := by
  simp only [List.findSome?_eq_some_iff, ← mem_cuts_iff]
  constructor
  · rintro ⟨before, ⟨front, back⟩, after, hcuts, hanswer, hbefore⟩
    obtain ⟨b, hb, heq⟩ := Option.map_eq_some_iff.1 hanswer
    obtain ⟨rfl, rfl⟩ := Prod.mk.inj heq
    refine ⟨front, by simp [hcuts], hb, fun front' keys' hmem hsome ↦ ?_⟩
    -- fronts without an answer come before, shorter ones after
    have hpair := pairwise_cuts mark s
    rw [hcuts, List.pairwise_append, List.pairwise_cons] at hpair
    rw [hcuts, List.mem_append, List.mem_cons] at hmem
    rcases hmem with hmem | heq | hmem
    · have hnone := hbefore _ hmem
      rw [Option.map_eq_none_iff] at hnone
      rw [hnone] at hsome
      exact absurd hsome Bool.false_ne_true
    · exact Nat.le_of_eq (congrArg String.length (Prod.mk.inj heq).1)
    · exact Nat.le_of_lt (hpair.2.1.1 _ hmem)
  · rintro ⟨front, hmem, hanswer, hlongest⟩
    obtain ⟨before, after, hcuts⟩ := List.append_of_mem hmem
    refine ⟨before, (front, keys), after, hcuts, by rw [hanswer]; rfl, ?_⟩
    rintro ⟨front', keys'⟩ hb
    have hpair := pairwise_cuts mark s
    rw [hcuts, List.pairwise_append] at hpair
    have hlonger : front.length < front'.length := hpair.2.2 _ hb _ List.mem_cons_self
    cases hfront : answer? front' with
    | none => rfl
    | some b =>
      have hle := hlongest front' keys' (hcuts ▸ List.mem_append_left _ hb) (by rw [hfront]; rfl)
      exact absurd hlonger (Nat.not_lt.2 hle)

/-! ### Stretches -/

/-- The stretches of `s` between its marks are `parts`: at least one, none of which has a mark in
it. -/
structure Stretches (mark : Char) (s : String) (parts : List String) : Prop where
  ne_nil : parts ≠ []
  mark_not_mem : ∀ part ∈ parts, mark ∉ part.toList
  eq_intercalate : s = (String.singleton mark).intercalate parts

theorem splitChars_eq_splitOn (mark : Char) (cs : List Char) :
    splitChars mark cs = cs.splitOn mark := by
  induction cs with
  | nil => rfl
  | cons c cs ih =>
    rw [splitChars, List.splitOn_cons_eq_if_modifyHead, ih]
    by_cases h : c = mark
    · rw [if_pos h, if_pos (beq_iff_eq.2 h)]
    · rw [if_neg h, if_neg (mt beq_iff_eq.1 h)]
      cases hsplit : cs.splitOn mark with
      | nil => exact absurd hsplit (List.splitOn_ne_nil mark cs)
      | cons first rest => rfl

theorem mark_not_mem_of_mem_splitChars {mark : Char} {cs part : List Char}
    (h : part ∈ splitChars mark cs) : mark ∉ part := by
  induction cs generalizing part with
  | nil => exact List.mem_singleton.1 h ▸ List.not_mem_nil
  | cons c cs ih =>
    rw [splitChars] at h
    by_cases hc : c = mark
    · rw [if_pos hc, List.mem_cons] at h
      rcases h with rfl | h
      · exact List.not_mem_nil
      · exact ih h
    · rw [if_neg hc] at h
      cases hsplit : splitChars mark cs with
      | nil =>
        simp only [hsplit] at h
        rw [List.mem_singleton.1 h, List.mem_singleton]
        exact Ne.symm hc
      | cons first rest =>
        rw [hsplit] at ih
        simp only [hsplit, List.mem_cons] at h
        rcases h with rfl | h
        · rw [List.mem_cons, not_or]
          exact ⟨Ne.symm hc, ih List.mem_cons_self⟩
        · exact ih (List.mem_cons_of_mem _ h)

/-- Splitting a text gives its stretches, and there are no others. -/
theorem split_eq_iff {mark : Char} {s : String} {parts : List String} :
    split mark s = parts ↔ Stretches mark s parts := by
  constructor
  · rintro rfl
    refine ⟨?_, ?_, ?_⟩
    · rw [split, splitChars_eq_splitOn]
      exact mt List.map_eq_nil_iff.1 (List.splitOn_ne_nil _ _)
    · intro part hpart
      obtain ⟨cs, hcs, rfl⟩ := List.mem_map.1 hpart
      rw [String.toList_ofList]
      exact mark_not_mem_of_mem_splitChars hcs
    · have hparts : (split mark s).map String.toList = s.toList.splitOn mark := by
        rw [split, List.map_map, splitChars_eq_splitOn]
        exact (List.map_congr_left fun cs _ ↦ String.toList_ofList).trans (List.map_id' _)
      apply String.toList_injective
      rw [String.toList_intercalate, hparts, String.toList_singleton, List.intercalate_splitOn]
  · rintro ⟨hne, hmark, rfl⟩
    have hmark' : ∀ cs ∈ parts.map String.toList, mark ∉ cs := List.forall_mem_map.2 hmark
    rw [split, splitChars_eq_splitOn, String.toList_intercalate, String.toList_singleton,
      List.splitOn_intercalate _ hmark' (mt List.map_eq_nil_iff.1 hne), List.map_map]
    exact (List.map_congr_left fun part _ ↦ String.ofList_toList).trans (List.map_id' _)

end Text

end Statechart
