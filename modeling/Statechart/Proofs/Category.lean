import Statechart.Transition.Category
import Mathlib.Data.List.Nodup

/-!
# Sorting transitions is a partition

A category that is decided by the name of the event is the only one with this event
(`Category.event?_injective`), since the names start differently. So of the six predicates on the
event exactly one holds of a transition, in whatever order they are asked, and the id in a category
is the only one from which the event can be made.

Sorting items adds each of them at the end of one bucket (`Buckets.entries_add`), so a bucket holds
the items of its category in their order (`Buckets.entries_collect`), and all buckets together hold
what was sorted.
-/

namespace Statechart

/-- The buckets that transitions are sorted into. -/
inductive Bucket where
  | eventOccurred
  | stateDone
  | invocationDone
  | invocationError
  | delayDone
  | always
  | wildcard
deriving DecidableEq

namespace Bucket

/-- All buckets, in the order in which their items are listed. -/
def every : List Bucket :=
  [.eventOccurred, .stateDone, .invocationDone, .invocationError, .delayDone, .always, .wildcard]

/-- The buckets that are decided by the event alone. -/
def byEvent : List Bucket :=
  [.eventOccurred, .stateDone, .invocationDone, .invocationError, .always, .wildcard]

theorem mem_every (k : Bucket) : k ∈ every := by cases k <;> decide

theorem mem_byEvent_iff {k : Bucket} : k ∈ byEvent ↔ k ≠ .delayDone := by cases k <;> decide

/-- Does the transition have what the bucket asks for? All but one look at the event alone. -/
def fits (t : Transition) : Bucket → Bool
  | .eventOccurred => t.isNamedEvent
  | .stateDone => t.isStateDone
  | .invocationDone => t.isInvocationDone
  | .invocationError => t.isInvocationError
  | .delayDone => t.isDelayed
  | .always => t.isAlways
  | .wildcard => t.isWildcard

/-- The first six characters of the events of a bucket, if it has events of its own. -/
def mark? : Bucket → Option (List Char)
  | .always => some []
  | .wildcard => some ['*']
  | .stateDone => some ['d', 'o', 'n', 'e', '.', 's']
  | .invocationDone => some ['d', 'o', 'n', 'e', '.', 'i']
  | .invocationError => some ['e', 'r', 'r', 'o', 'r', '.']
  | .eventOccurred | .delayDone => none

theorem eq_of_mark? {k l : Bucket} {cs : List Char} (hk : k.mark? = some cs)
    (hl : l.mark? = some cs) : k = l := by
  have hall : ∀ k ∈ every, ∀ l ∈ every, k.mark? ≠ none → k.mark? = l.mark? → k = l := by decide
  exact hall k k.mem_every l l.mem_every (hk ▸ Option.some_ne_none cs) (hk.trans hl.symm)

end Bucket

namespace Category

variable {c d : Category} {event : String}

/-- The bucket of a category. -/
def bucket : Category → Bucket
  | .eventOccurred => .eventOccurred
  | .stateDone _ => .stateDone
  | .invocationDone _ => .invocationDone
  | .invocationError _ => .invocationError
  | .delayDone => .delayDone
  | .always => .always
  | .wildcard => .wildcard

/-- The id that a category carries. -/
def id? : Category → Option String
  | .stateDone id | .invocationDone id | .invocationError id => some id
  | _ => none

/-- The event of the transitions of a category, if there is only one. -/
def event? : Category → Option String
  | .always => some Event.always
  | .wildcard => some Event.wildcard
  | .stateDone id => some (Event.doneState id)
  | .invocationDone id => some (Event.doneInvoke id)
  | .invocationError id => some (Event.errorPlatform id)
  | .eventOccurred | .delayDone => none

theorem mark?_bucket (h : c.event? = some event) : c.bucket.mark? = some (event.toList.take 6) := by
  cases c with
  | eventOccurred | delayDone => cases h
  | _ =>
    obtain rfl := Option.some.inj h
    simp [bucket, Bucket.mark?, Event.always, Event.wildcard, Event.doneState, Event.doneStateLead,
      Event.doneInvoke, Event.doneInvokeLead, Event.errorPlatform, Event.errorPlatformLead]

/-- **An event belongs to one category.** The event tells the bucket by the way it starts, and then
the id by what follows. -/
theorem event?_injective (hc : c.event? = some event) (hd : d.event? = some event) : c = d := by
  have hbucket : c.bucket = d.bucket := Bucket.eq_of_mark? (mark?_bucket hc) (mark?_bucket hd)
  have hevent : c.event? = d.event? := hc.trans hd.symm
  have hcancel : ∀ {lead id id' : String}, some (lead ++ id) = some (lead ++ id') → id = id' :=
    fun h ↦ (String.append_right_inj _).1 (Option.some.inj h)
  cases c <;> cases d <;> try cases hbucket
  case stateDone => rw [hcancel hevent]
  case invocationDone => rw [hcancel hevent]
  case invocationError => rw [hcancel hevent]
  all_goals rfl

end Category

namespace Transition

variable {t : Transition} {c : Category}

/-! ### Predicates on the event -/

/-- The predicate of a bucket holds of the events of its categories. -/
theorem fits_of_event? (h : c.event? = some t.event) : c.bucket.fits t = true := by
  cases c with
  | eventOccurred | delayDone => cases h
  | always | wildcard => exact beq_iff_eq.2 (Option.some.inj h).symm
  | stateDone id | invocationDone id | invocationError id =>
    exact Text.startsWith_iff.2 ⟨id, (Option.some.inj h).symm⟩

/-- It holds of no others. -/
theorem exists_event?_of_fits {k : Bucket} (hk : k ∈ Bucket.byEvent)
    (hne : k ≠ .eventOccurred) (h : k.fits t = true) :
    ∃ c : Category, c.bucket = k ∧ c.event? = some t.event := by
  cases k with
  | eventOccurred => exact absurd rfl hne
  | delayDone => exact absurd rfl (Bucket.mem_byEvent_iff.1 hk)
  | always => exact ⟨.always, rfl, congrArg some (beq_iff_eq.1 h).symm⟩
  | wildcard => exact ⟨.wildcard, rfl, congrArg some (beq_iff_eq.1 h).symm⟩
  | stateDone =>
    obtain ⟨id, hid⟩ := Text.startsWith_iff.1 h
    exact ⟨.stateDone id, rfl, congrArg some hid.symm⟩
  | invocationDone =>
    obtain ⟨id, hid⟩ := Text.startsWith_iff.1 h
    exact ⟨.invocationDone id, rfl, congrArg some hid.symm⟩
  | invocationError =>
    obtain ⟨id, hid⟩ := Text.startsWith_iff.1 h
    exact ⟨.invocationError id, rfl, congrArg some hid.symm⟩

theorem isNamedEvent_iff :
    t.isNamedEvent = true ↔ ∀ k ∈ Bucket.byEvent, k ≠ .eventOccurred → k.fits t = false := by
  have hsplit : t.isNamedEvent = true ↔ t.isAlways = false ∧ t.isWildcard = false ∧
      t.isStateDone = false ∧ t.isInvocationDone = false ∧ t.isInvocationError = false := by
    simp only [isNamedEvent, Bool.not_eq_true', Bool.or_eq_false_iff, and_assoc]
  rw [hsplit]
  constructor
  · rintro ⟨halways, hwildcard, hstate, hdone, herror⟩ k hk hne
    cases k with
    | eventOccurred => exact absurd rfl hne
    | delayDone => exact absurd rfl (Bucket.mem_byEvent_iff.1 hk)
    | always => exact halways
    | wildcard => exact hwildcard
    | stateDone => exact hstate
    | invocationDone => exact hdone
    | invocationError => exact herror
  · intro h
    exact ⟨h .always (by decide) nofun, h .wildcard (by decide) nofun,
      h .stateDone (by decide) nofun, h .invocationDone (by decide) nofun,
      h .invocationError (by decide) nofun⟩

/-- **At most one predicate on the event holds.** -/
theorem eq_of_fits {k l : Bucket} (hk : k ∈ Bucket.byEvent) (hl : l ∈ Bucket.byEvent)
    (hkt : k.fits t = true) (hlt : l.fits t = true) : k = l := by
  have hnamed : ∀ {m : Bucket}, m ∈ Bucket.byEvent → m ≠ .eventOccurred → m.fits t = true →
      Bucket.fits t .eventOccurred = true → False := by
    intro m hm hne hmt hevent
    exact absurd (hmt.symm.trans (isNamedEvent_iff.1 hevent m hm hne)) nofun
  by_cases hke : k = .eventOccurred
  · by_cases hle : l = .eventOccurred
    · rw [hke, hle]
    · exact (hnamed hl hle hlt (hke ▸ hkt)).elim
  · by_cases hle : l = .eventOccurred
    · exact (hnamed hk hke hkt (hle ▸ hlt)).elim
    · obtain ⟨c, rfl, hc⟩ := exists_event?_of_fits hk hke hkt
      obtain ⟨d, rfl, hd⟩ := exists_event?_of_fits hl hle hlt
      rw [Category.event?_injective hc hd]

/-! ### The category -/

/-- What the rules find, one after the other, in a transition without a delay: a category that is
decided by the event, or none. -/
theorem category_cases (h : t.delay = none) :
    (t.category = .eventOccurred ∧ t.isNamedEvent = true) ∨
      t.category.event? = some t.event := by
  have hdelayed : t.isDelayed = false := by rw [isDelayed, h]; rfl
  have hnone : ∀ {lead : String}, Text.after? lead t.event = none →
      Text.startsWith lead t.event = false := by
    intro lead hlead
    rw [Text.startsWith_eq_isSome, hlead]
    rfl
  rw [category, hdelayed, if_neg Bool.false_ne_true]
  split
  · next halways => exact .inr (congrArg some (beq_iff_eq.1 halways).symm)
  · next halways =>
    split
    · next hwildcard => exact .inr (congrArg some (beq_iff_eq.1 hwildcard).symm)
    · next hwildcard =>
      split
      · next id hid => exact .inr (congrArg some (Text.after?_eq_some_iff.1 hid).symm)
      · next hstate =>
        split
        · next id hid => exact .inr (congrArg some (Text.after?_eq_some_iff.1 hid).symm)
        · next hdone =>
          split
          · next id hid => exact .inr (congrArg some (Text.after?_eq_some_iff.1 hid).symm)
          · next herror =>
            refine .inl ⟨rfl, ?_⟩
            rw [isNamedEvent, isStateDone, isInvocationDone, isInvocationError, hnone hstate,
              hnone hdone, hnone herror, Bool.eq_false_iff.2 halways, Bool.eq_false_iff.2 hwildcard]
            rfl

theorem category_of_delay (h : t.delay ≠ none) : t.category = .delayDone := by
  have hdelayed : t.isDelayed = true := Option.isSome_iff_ne_none.2 h
  rw [category, if_pos hdelayed]

/-- **A category that is decided by the event** is that of every undelayed transition on the
event. -/
theorem category_of_event? (h : t.delay = none) (hc : c.event? = some t.event) :
    t.category = c := by
  rcases category_cases h with ⟨-, hnamed⟩ | hevent
  · have hne : c.bucket ∈ Bucket.byEvent ∧ c.bucket ≠ .eventOccurred := by
      cases c with
      | eventOccurred | delayDone => cases hc
      | _ => exact ⟨by simp [Category.bucket, Bucket.mem_byEvent_iff], nofun⟩
    exact absurd ((fits_of_event? hc).symm.trans (isNamedEvent_iff.1 hnamed _ hne.1 hne.2)) nofun
  · exact Category.event?_injective hevent hc

theorem category_eq_iff {event : String} (hc : c.event? = some event) :
    t.category = c ↔ t.delay = none ∧ t.event = event := by
  constructor
  · rintro rfl
    have hdelay : t.delay = none := by
      by_contra hne
      rw [category_of_delay hne] at hc
      cases hc
    rcases category_cases hdelay with ⟨heq, -⟩ | hevent
    · rw [heq] at hc
      cases hc
    · exact ⟨hdelay, Option.some.inj (hevent.symm.trans hc)⟩
  · rintro ⟨hdelay, rfl⟩
    exact category_of_event? hdelay hc

/-- The bucket of an undelayed transition is the one whose predicate holds. -/
theorem bucket_category (h : t.delay = none) :
    t.category.bucket ∈ Bucket.byEvent ∧ t.category.bucket.fits t = true := by
  rcases category_cases h with ⟨heq, hnamed⟩ | hevent
  · rw [heq]
    exact ⟨by decide, hnamed⟩
  · refine ⟨Bucket.mem_byEvent_iff.2 fun hdelay ↦ ?_, fits_of_event? hevent⟩
    have hmark := Category.mark?_bucket hevent
    rw [hdelay] at hmark
    cases hmark

/-- Some predicate on the event holds, delay or not. -/
theorem exists_fits (t : Transition) : ∃ k ∈ Bucket.byEvent, k.fits t = true := by
  -- the predicates do not look at the delay, so it can be left out
  have hfits : ∀ k ∈ Bucket.byEvent, k.fits { t with delay := none } = k.fits t := by
    intro k hk
    cases k with
    | delayDone => exact absurd rfl (Bucket.mem_byEvent_iff.1 hk)
    | _ => rfl
  have hbucket : ∃ k ∈ Bucket.byEvent, k.fits { t with delay := none } = true :=
    ⟨_, bucket_category rfl⟩
  obtain ⟨k, hk, hkt⟩ := hbucket
  exact ⟨k, hk, (hfits k hk).symm.trans hkt⟩

theorem category_eq_delayDone_iff : t.category = .delayDone ↔ t.delay ≠ none := by
  refine ⟨fun heq hdelay ↦ ?_, category_of_delay⟩
  have hmem := (bucket_category hdelay).1
  rw [heq] at hmem
  exact Bucket.mem_byEvent_iff.1 hmem rfl

end Transition

/-! ### Sorting -/

/-- Keeping the items of each key in turn keeps every item once. -/
theorem perm_flatMap_filter {α κ : Type} [DecidableEq κ] (key : α → κ) {ks : List κ}
    (hks : ks.Nodup) {xs : List α} (h : ∀ x ∈ xs, key x ∈ ks) :
    (ks.flatMap fun k ↦ xs.filter (key · = k)).Perm xs := by
  induction ks generalizing xs with
  | nil =>
    rw [List.eq_nil_iff_forall_not_mem.2 fun x hx ↦ List.not_mem_nil (h x hx)]
    exact .nil
  | cons k ks ih =>
    obtain ⟨hk, hks⟩ := List.nodup_cons.1 hks
    have hothers : ∀ x ∈ xs.filter (fun x ↦ !decide (key x = k)), key x ∈ ks := by
      intro x hx
      obtain ⟨hmem, hne⟩ := List.mem_filter.1 hx
      exact (List.mem_cons.1 (h x hmem)).resolve_left (by simpa using hne)
    -- leaving out the items of one key leaves those of the others
    have hlater : (ks.flatMap fun l ↦ xs.filter (key · = l)) =
        ks.flatMap fun l ↦ (xs.filter fun x ↦ !decide (key x = k)).filter (key · = l) := by
      refine List.flatMap_congr fun l hl ↦ ?_
      rw [List.filter_filter]
      refine List.filter_congr fun x _ ↦ ?_
      have hne : l ≠ k := fun hlk ↦ hk (hlk ▸ hl)
      by_cases hxl : key x = l <;> simp [hxl, hne]
    rw [List.flatMap_cons, hlater]
    exact ((ih hks hothers).append_left _).trans (List.filter_append_perm _ xs)

namespace Buckets

variable {α β : Type} (transition : α → Transition)

/-- The items of a bucket, with the ids that are kept with them. -/
def entries (b : Buckets α) : Bucket → List (α × Option String)
  | .eventOccurred => b.eventOccurred.map fun x ↦ (x, none)
  | .stateDone => b.stateDone.map fun e ↦ (e.1, some e.2)
  | .invocationDone => b.invocationDone.map fun e ↦ (e.1, some e.2)
  | .invocationError => b.invocationError.map fun e ↦ (e.1, some e.2)
  | .delayDone => b.delayDone.map fun x ↦ (x, none)
  | .always => b.always.map fun x ↦ (x, none)
  | .wildcard => b.wildcard.map fun x ↦ (x, none)

/-- Change every item and keep it where it is. -/
def map (f : α → β) (b : Buckets α) : Buckets β where
  eventOccurred := b.eventOccurred.map f
  stateDone := b.stateDone.map fun e ↦ (f e.1, e.2)
  invocationDone := b.invocationDone.map fun e ↦ (f e.1, e.2)
  invocationError := b.invocationError.map fun e ↦ (f e.1, e.2)
  delayDone := b.delayDone.map f
  always := b.always.map f
  wildcard := b.wildcard.map f

/-- **One item** comes to the end of the bucket of its category, and no other bucket changes. -/
theorem entries_add (b : Buckets α) (x : α) (c : Category) (k : Bucket) :
    (b.add x c).entries k = b.entries k ++ if c.bucket = k then [(x, c.id?)] else [] := by
  cases c <;> cases k <;> simp [add, entries, Category.bucket, Category.id?]

/-- **All items.** A bucket holds the items of its category, in the order in which they came. -/
theorem entries_collect (items : List α) (k : Bucket) :
    (collect transition items).entries k =
      (items.filter fun x ↦ (transition x).category.bucket = k).map
        fun x ↦ (x, (transition x).category.id?) := by
  have hrun : ∀ b : Buckets α,
      (items.foldl (fun b x ↦ b.add x (transition x).category) b).entries k =
        b.entries k ++ (items.filter fun x ↦ (transition x).category.bucket = k).map
          fun x ↦ (x, (transition x).category.id?) := by
    induction items with
    | nil => exact fun b ↦ (List.append_nil _).symm
    | cons x items ih =>
      intro b
      rw [List.foldl_cons, ih, entries_add, List.append_assoc, List.filter_cons]
      by_cases h : (transition x).category.bucket = k <;> simp [h]
  rw [collect, hrun]
  cases k <;> rfl

theorem toList_eq_flatMap (b : Buckets α) :
    b.toList = Bucket.every.flatMap fun k ↦ (b.entries k).map Prod.fst := by
  simp [toList, Bucket.every, entries, Function.comp_def]

/-- No item is lost, and none comes twice. -/
theorem toList_collect_perm (items : List α) : (collect transition items).toList.Perm items := by
  have hentries : ∀ k, ((collect transition items).entries k).map Prod.fst =
      items.filter fun x ↦ (transition x).category.bucket = k := by
    intro k
    rw [entries_collect, List.map_map]
    exact List.map_id _
  simp only [toList_eq_flatMap, hentries]
  exact perm_flatMap_filter _ (by decide) fun x _ ↦ Bucket.mem_every _

theorem size_eq_length (b : Buckets α) : b.size = b.toList.length := by
  simp only [size, toList, List.length_append, List.length_map]

/-- Sorting changed items is changing sorted ones. -/
theorem collect_map (f : β → α) (items : List β) :
    collect transition (items.map f) = (collect (fun x ↦ transition (f x)) items).map f := by
  have hadd : ∀ (b : Buckets β) (x : β) (c : Category),
      (b.map f).add (f x) c = (b.add x c).map f := by
    intro b x c
    cases c <;> simp [add, map]
  have hrun : ∀ b : Buckets β,
      (items.map f).foldl (fun b x ↦ b.add x (transition x).category) (b.map f) =
        (items.foldl (fun b x ↦ b.add x (transition (f x)).category) b).map f := by
    induction items with
    | nil => exact fun b ↦ rfl
    | cons x items ih =>
      intro b
      rw [List.map_cons, List.foldl_cons, List.foldl_cons, hadd, ih]
  exact hrun empty

end Buckets

/-- What a category says of a transition. -/
structure Transition.Classified (t : Transition) : Prop where
  delayDone_iff : t.category = .delayDone ↔ t.delay ≠ none
  /-- Exactly one of the predicates on the event holds. -/
  existsUnique_fits : ∃! k, k ∈ Bucket.byEvent ∧ k.fits t = true
  /-- Without a delay it names the bucket. -/
  bucket_eq_iff : t.delay = none → ∀ k ∈ Bucket.byEvent, t.category.bucket = k ↔ k.fits t = true
  /-- In whatever order they are asked, the same one answers. -/
  find?_fits : t.delay = none → ∀ order : List Bucket, order.Perm Bucket.byEvent →
    order.find? (Bucket.fits t) = some t.category.bucket
  /-- The id is the one from which the event is made. -/
  stateDone_iff : ∀ id, t.category = .stateDone id ↔ t.delay = none ∧ t.event = Event.doneState id
  invocationDone_iff : ∀ id,
    t.category = .invocationDone id ↔ t.delay = none ∧ t.event = Event.doneInvoke id
  invocationError_iff : ∀ id,
    t.category = .invocationError id ↔ t.delay = none ∧ t.event = Event.errorPlatform id

/-- Every transition is in one bucket, and no bucket changes the order. -/
structure Buckets.Partition (b : Buckets Transition) (ts : List Transition) : Prop where
  /-- A bucket holds the transitions of its category, in their order. -/
  entries_eq : ∀ k, b.entries k =
    (ts.filter (·.category.bucket = k)).map fun t ↦ (t, t.category.id?)
  perm : b.toList.Perm ts
  size_eq : b.size = ts.length
  /-- Sorted with their numbers, the transitions come into the same buckets. -/
  eq_map : b = (collect Prod.fst ts.zipIdx).map Prod.fst
  /-- Each number comes into one bucket. -/
  existsUnique_entries : ∀ i t, ts[i]? = some t →
    ∃! k, ∃ id, ((t, i), id) ∈ (collect Prod.fst ts.zipIdx).entries k

namespace Transition

theorem classified (t : Transition) : t.Classified := by
  have hiff : t.delay = none → ∀ k ∈ Bucket.byEvent,
      t.category.bucket = k ↔ k.fits t = true := by
    intro h k hk
    obtain ⟨hmem, hfits⟩ := bucket_category h
    exact ⟨fun heq ↦ heq ▸ hfits, fun hkt ↦ eq_of_fits hmem hk hfits hkt⟩
  refine ⟨category_eq_delayDone_iff, ?_, hiff, fun h order horder ↦ ?_,
    fun _ ↦ category_eq_iff rfl, fun _ ↦ category_eq_iff rfl, fun _ ↦ category_eq_iff rfl⟩
  · obtain ⟨k, hk, hkt⟩ := exists_fits t
    exact ⟨k, ⟨hk, hkt⟩, fun l hl ↦ eq_of_fits hl.1 hk hl.2 hkt⟩
  · obtain ⟨hmem, hfits⟩ := bucket_category h
    cases hfind : order.find? (Bucket.fits t) with
    | none =>
      have hnone := List.find?_eq_none.1 hfind _ (horder.mem_iff.2 hmem)
      exact absurd hfits hnone
    | some k =>
      have hk : k ∈ Bucket.byEvent := horder.mem_iff.1 (List.mem_of_find?_eq_some hfind)
      rw [(hiff h k hk).2 (List.find?_some hfind)]

end Transition

/-- **Sorting transitions is a partition.** Each transition comes into the bucket of its category,
which is the one that its delay or else its event asks for. -/
theorem Buckets.partition_ofTransitions (ts : List Transition) :
    (ofTransitions ts).Partition ts ∧ ∀ t : Transition, t.Classified := by
  refine ⟨⟨entries_collect id ts, toList_collect_perm id ts, ?_, ?_, fun i t hi ↦ ?_⟩,
    Transition.classified⟩
  · rw [size_eq_length]
    exact (toList_collect_perm id ts).length_eq
  · have hmap := collect_map id Prod.fst ts.zipIdx
    rw [List.zipIdx_map_fst] at hmap
    exact hmap
  · have hmem : (t, i) ∈ ts.zipIdx := List.mem_zipIdx_iff_getElem?.2 hi
    have hiff : ∀ k, (∃ id, ((t, i), id) ∈ (collect Prod.fst ts.zipIdx).entries k) ↔
        t.category.bucket = k := by
      intro k
      rw [entries_collect]
      constructor
      · rintro ⟨id, h⟩
        obtain ⟨x, hx, heq⟩ := List.mem_map.1 h
        obtain rfl := (Prod.mk.inj heq).1
        exact of_decide_eq_true (List.mem_filter.1 hx).2
      · intro h
        exact ⟨_, List.mem_map_of_mem (List.mem_filter.2 ⟨hmem, decide_eq_true h⟩)⟩
    exact ⟨_, (hiff _).2 rfl, fun k hk ↦ ((hiff k).1 hk).symm⟩

-- events that almost look like others, and a delay on one that needs no event
example :
    let b := Buckets.ofTransitions [.of "a" "done.state", .of "a" "done.state.", .of "a" "",
      { Transition.of "a" "" with delay := some (.millis 5) },
      .of "a" "done.state.done.invoke.b", .of "a" "**", .of "a" "*"]
    Bucket.every.map (fun k ↦ (b.entries k).map fun e ↦ (e.1.event, e.2)) =
      [[("done.state", none), ("**", none)],
        [("done.state.", some ""), ("done.state.done.invoke.b", some "done.invoke.b")], [], [],
        [("", none)], [("", none)], [("*", none)]] := by decide

end Statechart
