import Statechart.Proofs.Format.Config
import Statechart.Proofs.Keyed

/-!
# What every config that is read satisfies

Whatever its text, a config that is read has maps with distinct keys, no metadata that is `null`,
and no parameter under the name `type` (`MachineConfig.carries_of_decode`). For each way of putting
decoders together there is a lemma that says what passes from the parts to the whole; for a group of
fields it is `Record.forall_of_decode`, which asks of every field that it keeps the property.
-/

namespace Statechart

/-! ### Steps of a decoder -/

namespace Decoding

variable {α β : Type}

/-- A step succeeds if what it reads does. -/
theorem exists_of_bind_pure {m : Decoded α} {f : α → β} {y : β}
    (h : (m >>= fun v ↦ pure (f v)) = .ok y) : ∃ v, m = .ok v ∧ f v = y := by
  cases m with
  | error e => cases h
  | ok v => exact ⟨v, rfl, Except.ok.inj h⟩

theorem exists_of_bind {m : Decoded α} {f : α → Decoded β} {y : β} (h : (m >>= f) = .ok y) :
    ∃ v, m = .ok v ∧ f v = .ok y := by
  cases m with
  | error e => cases h
  | ok v => exact ⟨v, rfl, h⟩

/-- What is read from a text is decoded from its first value. -/
theorem exists_of_document {decode : Document → Decoded α} {text : String} {x : α}
    (h : document decode text = .ok x) : ∃ d, decode d = .ok x := by
  refine ⟨(Reader.document text.toList).1, ?_⟩
  simp only [document] at h
  split at h
  · next y hd =>
    split at h
    · exact hd.trans h
    · cases h
  · cases h

end Decoding

/-- The documents that stand directly in a list or object. -/
def Document.parts : Document → List Document
  | .list ds => ds
  | .object ms => ms.map Prod.snd
  | _ => []

/-- What passes from the parts of a document to the document holds of every document. -/
@[elab_as_elim]
theorem Document.induction {motive : Document → Prop}
    (step : ∀ d : Document, (∀ e ∈ d.parts, motive e) → motive d) (d : Document) : motive d :=
  @Document.rec motive (fun ds ↦ ∀ e ∈ ds, motive e) (fun ms ↦ ∀ e ∈ ms.map Prod.snd, motive e)
    (fun e ↦ motive e.2)
    (step _ fun _ h ↦ absurd h List.not_mem_nil)
    (fun _ ↦ step _ fun _ h ↦ absurd h List.not_mem_nil)
    (fun _ ↦ step _ fun _ h ↦ absurd h List.not_mem_nil)
    (fun _ ↦ step _ fun _ h ↦ absurd h List.not_mem_nil)
    (fun _ all ↦ step _ all)
    (fun _ all ↦ step _ all)
    (fun _ ↦ step _ fun _ h ↦ absurd h List.not_mem_nil)
    (fun _ h ↦ absurd h List.not_mem_nil)
    (fun _ _ first rest ↦ List.forall_mem_cons.2 ⟨first, rest⟩)
    (fun _ h ↦ absurd h List.not_mem_nil)
    (fun _ _ first rest ↦ List.forall_mem_cons.2 ⟨first, rest⟩)
    (fun _ _ below ↦ below) d

namespace Decoding

variable {α : Type} {read : Document → Decoded α} {Q : α → Prop}

theorem forall_of_all {ds : List Document} {xs : List α} (h : all read ds = .ok xs)
    (hread : ∀ d ∈ ds, ∀ x, read d = .ok x → Q x) : ∀ x ∈ xs, Q x := by
  induction ds generalizing xs with
  | nil =>
    obtain rfl := Except.ok.inj h
    exact fun x hx ↦ absurd hx List.not_mem_nil
  | cons d ds ih =>
    obtain ⟨hfirst, hrest⟩ := List.forall_mem_cons.1 hread
    obtain ⟨x, hx, h⟩ := exists_of_bind h
    obtain ⟨others, hothers, rfl⟩ := exists_of_bind_pure h
    exact List.forall_mem_cons.2 ⟨hfirst x hx, ih hothers hrest⟩

theorem forall_of_list {d : Document} {xs : List α} (h : list read d = .ok xs)
    (hread : ∀ d x, read d = .ok x → Q x) : ∀ x ∈ xs, Q x := by
  cases d with
  | list ds => exact forall_of_all h fun d _ ↦ hread d
  | _ => cases h

theorem forall_of_oneOrMany {d : Document} {xs : List α} (h : oneOrMany read d = .ok xs)
    (hread : ∀ d x, read d = .ok x → Q x) : ∀ x ∈ xs, Q x := by
  unfold oneOrMany at h
  split at h
  · split at h
    · next hlist => exact Except.ok.inj h ▸ forall_of_list hlist hread
    · split at h
      · next x hx =>
        rw [← Except.ok.inj h]
        exact List.forall_mem_singleton.2 (hread d x hx)
      · cases h
  · cases h

/-- Entries are put under their keys, so each key is there once. -/
theorem forall_of_allEntries {ms : List (Label × Document)} {kept es : List (String × α)}
    (h : allEntries read kept ms = .ok es)
    (hread : ∀ d ∈ ms.map Prod.snd, ∀ x, read d = .ok x → Q x)
    (hkeys : Keyed.Distinct kept) (hkept : ∀ e ∈ kept, Q e.2) :
    Keyed.Distinct es ∧ ∀ e ∈ es, Q e.2 := by
  induction ms generalizing kept with
  | nil => exact Except.ok.inj h ▸ ⟨hkeys, hkept⟩
  | cons m ms ih =>
    obtain ⟨l, d⟩ := m
    obtain ⟨hfirst, hrest⟩ := List.forall_mem_cons.1 hread
    cases l with
    | fault => cases h
    | name k =>
      obtain ⟨x, hx, h⟩ := exists_of_bind h
      refine ih h hrest (Keyed.distinct_put hkeys k x) fun e he ↦ ?_
      rcases Keyed.mem_of_mem_put he with rfl | he
      · exact hfirst x hx
      · exact hkept e he

theorem forall_of_entries {d : Document} {es : List (String × α)} (h : entries read d = .ok es)
    (hread : ∀ e ∈ d.parts, ∀ x, read e = .ok x → Q x) :
    Keyed.Distinct es ∧ ∀ e ∈ es, Q e.2 := by
  cases d with
  | object ms =>
    exact forall_of_allEntries h hread List.nodup_nil fun e he ↦ absurd he List.not_mem_nil
  | _ => cases h

end Decoding

namespace Record

variable {α : Type} {r : Record α} {P : α → Prop} {x y : α}

/-- What every field keeps is kept by the members of an object. -/
theorem forall_of_members {ms : List (Label × Document)}
    (hput : ∀ d ∈ ms.map Prod.snd, ∀ name ∈ r.fields, ∀ x y, P x → r.put name d x = .ok y → P y)
    {seen : List String} (hx : P x) (h : r.members seen x ms = .ok y) : P y := by
  induction ms generalizing seen x with
  | nil =>
    rw [members, finish] at h
    split at h
    · cases h
    · exact Except.ok.inj h ▸ hx
  | cons m ms ih =>
    obtain ⟨l, d⟩ := m
    obtain ⟨hfirst, hrest⟩ := List.forall_mem_cons.1 hput
    cases l with
    | fault => cases h
    | name k =>
      rw [members] at h
      split at h
      · next hk =>
        split at h
        · cases h
        · obtain ⟨z, hz, h⟩ := Decoding.exists_of_bind h
          exact ih hrest (hfirst k (List.contains_iff_mem.1 hk) x z hx hz) h
      · split at h
        · exact ih hrest hx h
        · cases h

/-- What every field keeps is kept by the items of a list. -/
theorem forall_of_positional {names : List String} {ds : List Document}
    (hput : ∀ d ∈ ds, ∀ name ∈ names, ∀ x y, P x → r.put name d x = .ok y → P y) (hx : P x)
    (h : r.positional x names ds = .ok y) : P y := by
  induction ds generalizing names x with
  | nil =>
    rw [positional] at h
    split at h
    · cases h
    · exact Except.ok.inj h ▸ hx
  | cons d ds ih =>
    obtain ⟨hfirst, hrest⟩ := List.forall_mem_cons.1 hput
    cases names with
    | nil => cases h
    | cons name names =>
      obtain ⟨z, hz, h⟩ := Decoding.exists_of_bind h
      exact ih (fun d hd other hother ↦ hrest d hd other (List.mem_cons_of_mem _ hother))
        (hfirst name List.mem_cons_self x z hx hz) h

/-- What holds before any field is read, and is kept by every field, holds of what is decoded. -/
theorem forall_of_decode {d : Document}
    (hput : ∀ e ∈ d.parts, ∀ name ∈ r.fields, ∀ x y, P x → r.put name e x = .ok y → P y)
    (hstart : P r.start) (h : r.decode d = .ok y) : P y := by
  cases d with
  | object ms => exact forall_of_members hput hstart h
  | list ds => exact forall_of_positional hput hstart h
  | _ => cases h

end Record

/-! ### Parameters and metadata -/

/-- Nothing is asked of the values that are carried. -/
def Json.Any (_ : Json) : Prop := True

namespace Decoding

/-- What is read under `type` is the name, never a parameter. -/
theorem type_notMem_of_nameAndParams {ms : List (Label × Document)} {name : Option String}
    {kept params : List (String × Json)} {s : String}
    (h : nameAndParams name kept ms = .ok (s, params)) (hkept : "type" ∉ Keyed.keys kept) :
    "type" ∉ Keyed.keys params := by
  induction ms generalizing name kept with
  | nil =>
    cases name with
    | none => cases h
    | some name =>
      obtain ⟨rfl, rfl⟩ := Prod.mk.inj (Except.ok.inj h)
      exact hkept
  | cons m ms ih =>
    obtain ⟨l, d⟩ := m
    cases l with
    | fault => cases h
    | name k =>
      rw [nameAndParams] at h
      split at h
      · split at h
        · cases h
        · obtain ⟨z, -, h⟩ := exists_of_bind h
          exact ih h hkept
      · next hk =>
        obtain ⟨j, -, h⟩ := exists_of_bind h
        refine ih h fun hmem ↦ ?_
        rcases Json.mem_keys_insertMember.1 hmem with htype | hmem
        · exact hk htype.symm
        · exact hkept hmem

theorem carry_of_nameAndParams {ms : List (Label × Document)} {name : String}
    {params : List (String × Json)} (h : nameAndParams none [] ms = .ok (name, params)) :
    Params.Carry Json.Any params where
  ne_type _ he htype := type_notMem_of_nameAndParams h List.not_mem_nil
    (htype ▸ List.mem_map_of_mem he)
  object := trivial

theorem carry_of_action {d : Document} {a : Action} (h : Action.decodeShort d = .ok a) :
    Params.Carry Json.Any a.params := by
  cases d with
  | text name => exact Except.ok.inj h ▸ ⟨fun e he ↦ absurd he List.not_mem_nil, trivial⟩
  | object ms =>
    obtain ⟨⟨name, params⟩, hparams, rfl⟩ := exists_of_bind_pure h
    exact carry_of_nameAndParams hparams
  | _ => cases h

theorem carry_of_guard {d : Document} {g : Guard} (h : Guard.decodeChoice d = .ok g) :
    Params.Carry Json.Any g.params := by
  unfold Guard.decodeChoice at h
  split at h
  · split at h
    · next hshort =>
      obtain rfl := Except.ok.inj h
      cases d with
      | text name =>
        exact Except.ok.inj hshort ▸ ⟨fun e he ↦ absurd he List.not_mem_nil, trivial⟩
      | object ms =>
        obtain ⟨⟨name, params⟩, hparams, rfl⟩ := exists_of_bind_pure hshort
        exact carry_of_nameAndParams hparams
      | _ => cases hshort
    · cases h
  · cases h

/-- What holds `null` is left out. -/
theorem carries_of_metadata {d : Document} {o : Option Json} (h : optional value d = .ok o) :
    Metadata.Carries Json.Any o := by
  have hnull : d.value? = some .null → d = .null := by
    cases d <;> simp [Document.value?, Json.ofMembers]
  intro j hj
  refine ⟨?_, trivial⟩
  rintro rfl
  obtain rfl := hj
  unfold optional at h
  split at h
  · cases h
  · next hne =>
    unfold value at h
    split at h
    · next j hvalue =>
      obtain rfl : j = .null := Option.some.inj (Except.ok.inj h)
      exact hne (hnull hvalue)
    · cases h

end Decoding

/-! ### Transitions and invocations -/

open Decoding

namespace TransitionConfig

theorem carries_of_put {name : String} {d : Document} {s t : TransitionConfig}
    (hs : s.Carries Json.Any) (h : record.put name d s = .ok t) : t.Carries Json.Any := by
  simp only [record] at h
  split at h
  all_goals obtain ⟨v, hv, rfl⟩ := exists_of_bind_pure h
  -- only actions, the guard and metadata carry anything
  case h_3 => exact { hs with actions := forall_of_oneOrMany hv fun _ _ ↦ carry_of_action }
  case h_4 => exact { hs with guard := fun g hg ↦ Option.some.inj hg ▸ carry_of_guard hv }
  case h_9 => exact { hs with metadata := carries_of_metadata hv }
  all_goals exact { hs with }

theorem carries_of_decodeShort {d : Document} {t : TransitionConfig} (h : decodeShort d = .ok t) :
    t.Carries Json.Any := by
  have hempty : Carries Json.Any {} := by
    constructor <;> simp [Metadata.Carries]
  unfold decodeShort at h
  split at h
  · exact Except.ok.inj h ▸ { hempty with }
  · exact Record.forall_of_decode (fun _ _ _ _ _ _ ↦ carries_of_put) hempty h

theorem carries_of_decodeList {d : Document} {ts : List TransitionConfig}
    (h : decodeList d = .ok ts) : ∀ t ∈ ts, t.Carries Json.Any :=
  forall_of_oneOrMany h fun _ _ ↦ carries_of_decodeShort

end TransitionConfig

namespace InvocationConfig

theorem carries_of_put {name : String} {d : Document} {i j : InvocationConfig}
    (hi : i.Carries Json.Any) (h : record.put name d i = .ok j) : j.Carries Json.Any := by
  simp only [record] at h
  split at h
  all_goals obtain ⟨v, hv, rfl⟩ := exists_of_bind_pure h
  case h_4 => exact { hi with onDone := TransitionConfig.carries_of_decodeList hv }
  case h_5 => exact { hi with onError := TransitionConfig.carries_of_decodeList hv }
  case h_6 => exact { hi with metadata := carries_of_metadata hv }
  all_goals exact { hi with }

theorem carries_of_decode {d : Document} {i : InvocationConfig} (h : decode d = .ok i) :
    i.Carries Json.Any :=
  Record.forall_of_decode (fun _ _ _ _ _ _ ↦ carries_of_put)
    (by constructor <;> simp [record, Metadata.Carries]) h

end InvocationConfig

/-! ### States -/

namespace StateConfig

theorem carries_of_putField {medium : Medium} {name : String} {d : Document} {f g : ConfigFacets}
    (hf : f.Carries Json.Any) (h : putField medium name d f = .ok g) : g.Carries Json.Any := by
  unfold putField at h
  split at h
  all_goals obtain ⟨v, hv, rfl⟩ := exists_of_bind_pure h
  -- the two maps
  case h_4 =>
    have hon := forall_of_entries hv fun _ _ _ ↦ TransitionConfig.carries_of_decodeList
    exact { hf with on := hon.2, on_distinct := hon.1 }
  case h_6 =>
    have hafter := forall_of_entries hv fun _ _ _ ↦ TransitionConfig.carries_of_decodeList
    exact { hf with after := hafter.2, after_distinct := hafter.1 }
  -- the other transitions
  case h_5 => exact { hf with always := TransitionConfig.carries_of_decodeList hv }
  case h_7 => exact { hf with onDone := TransitionConfig.carries_of_decodeList hv }
  case h_8 =>
    exact { hf with
      invocations := forall_of_oneOrMany hv fun _ _ ↦ InvocationConfig.carries_of_decode }
  -- actions and metadata
  case h_9 => exact { hf with entry := forall_of_oneOrMany hv fun _ _ ↦ carry_of_action }
  case h_10 => exact { hf with exit := forall_of_oneOrMany hv fun _ _ ↦ carry_of_action }
  case h_12 => exact { hf with metadata := carries_of_metadata hv }
  all_goals exact { hf with }

/-- What every config that is read satisfies, with those of all states below it. -/
def Proper (c : StateConfig) : Prop :=
  c.KeysDistinct ∧ ∀ d ∈ c.preorder, d.toConfigFacets.Carries Json.Any

/-- A config is proper if its facets are, its children are, and these have distinct keys. -/
theorem proper_iff {c : StateConfig} : c.Proper ↔
    c.toConfigFacets.Carries Json.Any ∧ Keyed.Distinct c.states ∧ ∀ e ∈ c.states, e.2.Proper := by
  constructor
  · rintro ⟨hkeys, hfacets⟩
    exact ⟨hfacets c (mem_preorder_self c), hkeys.states, fun e he ↦
      ⟨hkeys.of_mem_states he, fun d hd ↦ hfacets d (mem_preorder_of_mem_states he hd)⟩⟩
  · rintro ⟨hfacets, hkeys, hstates⟩
    constructor
    all_goals
      intro d hd
      rcases mem_preorder_iff.1 hd with rfl | ⟨e, he, hd⟩
    · exact hkeys
    · exact (hstates e he).1 d hd
    · exact hfacets
    · exact (hstates e he).2 d hd

theorem carries_empty : ConfigFacets.Carries Json.Any {} where
  on _ h := absurd h List.not_mem_nil
  always _ h := absurd h List.not_mem_nil
  after _ h := absurd h List.not_mem_nil
  onDone _ h := absurd h List.not_mem_nil
  invocations _ h := absurd h List.not_mem_nil
  entry _ h := absurd h List.not_mem_nil
  exit _ h := absurd h List.not_mem_nil
  metadata := by simp [Metadata.Carries]
  on_distinct := List.nodup_nil
  after_distinct := List.nodup_nil

theorem proper_empty : Proper empty :=
  proper_iff.2 ⟨carries_empty, List.nodup_nil, fun _ h ↦ absurd h List.not_mem_nil⟩

/-- A field keeps a config proper, if the children that it reads are. -/
theorem proper_of_put {medium : Medium} {name : String} {d : Document} {b c : StateConfig}
    (hchildren : ∀ e ∈ d.parts, ∀ c, decode medium e = .ok c → c.Proper) (hb : b.Proper)
    (h : (record medium).put name d b = .ok c) : c.Proper := by
  obtain ⟨hfacets, hkeys, hstates⟩ := proper_iff.1 hb
  by_cases hname : name = "states"
  · rw [put_states medium hname] at h
    obtain ⟨states, hread, rfl⟩ := exists_of_bind_pure h
    exact proper_iff.2 ⟨hfacets, forall_of_entries hread hchildren⟩
  · rw [put_facet medium hname] at h
    obtain ⟨f, hread, rfl⟩ := exists_of_bind_pure h
    exact proper_iff.2 ⟨carries_of_putField hfacets hread, hkeys, hstates⟩

/-- **Every config that is read is proper.** A config is read from the parts of the parts of its
document, so both are taken along. -/
theorem proper_of_decode {medium : Medium} {d : Document} :
    (∀ c, decode medium d = .ok c → c.Proper) ∧
      ∀ e ∈ d.parts, ∀ c, decode medium e = .ok c → c.Proper := by
  induction d using Document.induction with
  | step d ih =>
    refine ⟨fun c h ↦ ?_, fun e he ↦ (ih e he).1⟩
    rw [decode_eq] at h
    exact Record.forall_of_decode (fun e he _ _ _ _ ↦ proper_of_put (ih e he).2) proper_empty h

end StateConfig

/-! ### Machines -/

/-- Every config of a machine that is read has proper maps, metadata that is not `null` and
parameters that are not named `type`. -/
theorem MachineConfig.carries_of_decode {d : Document} {c : MachineConfig} (h : decode d = .ok c) :
    c.Carries Json.Any := by
  cases d with
  | object ms =>
    obtain ⟨context, -, h⟩ := exists_of_bind h
    obtain ⟨root, hroot, rfl⟩ := exists_of_bind_pure h
    rw [StateConfig.decodeMembers_eq] at hroot
    have hproper : root.Proper := Record.forall_of_members
      (fun e he _ _ _ _ ↦ StateConfig.proper_of_put StateConfig.proper_of_decode.2)
      StateConfig.proper_empty hroot
    exact ⟨hproper.2, hproper.1, trivial⟩
  | _ => cases h

end Statechart
