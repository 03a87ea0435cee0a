import Statechart.Proofs.Revision.Ancestors

/-!
# Revised states are sound

A machine whose states are sound by themselves (`State.Regular`) stays so under a mapper that makes
any edits but two kinds: it must not say where a state starts, and what it declares must start below
itself (`Edit.KeepsSound`). Revised children have the invariant by induction and declared ones from
the way they are built, and the list of all of them has it because a declared child takes the place
of the one that has its key.
-/

namespace Statechart

/-- The edit does not say where a state starts, and every config that it declares starts below
itself and has distinct keys. -/
def Edit.KeepsSound : Edit → Prop
  | .setInitial _ => False
  | .setChildren states => ∀ e ∈ states, e.2.Startable ∧ e.2.KeysDistinct
  | _ => True

namespace PendingState

/-! ### What edits that keep states sound decide on -/

section

variable {edits : List Edit} (h : ∀ e ∈ edits, e.KeepsSound) (s : State)

include h

theorem initial_edit_of_keepsSound : ((of s).edit edits).initial = none :=
  initial_edit (of s) fun key hmem ↦ h (.setInitial key) hmem

/-- Each declared child has a key of its own and starts below itself. -/
theorem declared_edit_of_keepsSound {states : List (String × StateConfig)}
    (hstates : ((of s).edit edits).declared = some states) :
    Keyed.Distinct states ∧ ∀ e ∈ states, e.2.Startable ∧ e.2.KeysDistinct := by
  obtain ⟨entries, hmem, rfl⟩ := exists_of_declared_edit s hstates
  obtain ⟨hdistinct, hsubset⟩ := Keyed.distinct_ofEntries_and_subset entries
  exact ⟨hdistinct, fun x hx ↦ h (.setChildren entries) hmem x (hsubset x hx)⟩

end

/-! ### Transitions -/

/-- The transitions of an invocation without an id of its own are on the events of its number. -/
theorem invocationTransitions_eq_flatMap_zipIdx (id : String) (n : Nat)
    (is : List InvocationConfig) :
    invocationTransitions id n is =
      (is.zipIdx n).flatMap fun (i, k) ↦
        handlers id (Event.doneInvoke (i.idAt id k)) i.onDone
          ++ handlers id (Event.errorPlatform (i.idAt id k)) i.onError := by
  induction is generalizing n with
  | nil => rfl
  | cons i is ih => rw [invocationTransitions, List.zipIdx_cons, List.flatMap_cons, ih]

theorem source_eq_of_mem_invocationTransitions {id : String} {index : Nat}
    {is : List InvocationConfig} {t : Transition} (ht : t ∈ invocationTransitions id index is) :
    t.source = id := by
  have hhandlers : ∀ {event : String} {ts : List TransitionConfig}, t ∈ handlers id event ts →
      t.source = id := by
    intro event ts hmem
    obtain ⟨c, -, rfl⟩ := List.mem_map.1 hmem
    rfl
  rw [invocationTransitions_eq_flatMap_zipIdx] at ht
  obtain ⟨e, -, ht⟩ := List.mem_flatMap.1 ht
  rcases List.mem_append.1 ht with hdone | herror
  · exact hhandlers hdone
  · exact hhandlers herror

/-- The transitions of a finished state: its own, untouched or written anew, then those of its
invocations if they were written anew. -/
theorem settledTransitions_eq (p : PendingState) :
    p.settledTransitions =
      (p.transitions.map (·.map (Transition.ofConfig p.base.id))).getD p.base.transitions ++
        (p.invocations.map (invocationTransitions p.base.id 0)).getD [] := by
  rw [settledTransitions]
  cases p.transitions <;> cases p.invocations <;> simp

/-- The transitions of the finished state start at it, wherever they come from. -/
theorem source_eq_of_mem_settledTransitions (p : PendingState)
    (hp : ∀ t ∈ p.base.transitions, t.source = p.base.id) {t : Transition}
    (ht : t ∈ p.settledTransitions) : t.source = p.base.id := by
  rw [settledTransitions_eq, List.mem_append] at ht
  rcases ht with ht | ht
  · cases htransitions : p.transitions with
    | none =>
      rw [htransitions] at ht
      exact hp t ht
    | some ts =>
      rw [htransitions] at ht
      obtain ⟨c, -, rfl⟩ := List.mem_map.1 ht
      rfl
  · cases hinvocations : p.invocations with
    | none =>
      rw [hinvocations] at ht
      exact absurd ht List.not_mem_nil
    | some is =>
      rw [hinvocations] at ht
      exact source_eq_of_mem_invocationTransitions ht

end PendingState

namespace State

variable {σ : Type} {mapper : Mapper σ} (path : List State) (data : σ)

/-! ### The children -/

section

variable {p : PendingState} {originals revised : List State}
  (hkeys : revised.map (·.key) = originals.map (·.key))

include hkeys

theorem rejoined_eq_overlay :
    rejoined p originals revised =
      Keyed.overlay (declaredChildren p.settle) (revised.map fun c ↦ (c.key, c)) := by
  rw [rejoined, ← hkeys, List.map_prod_right_eq_zip]

/-- The children that are put together are under the keys that they have. -/
theorem map_key_rejoined :
    ((rejoined p originals revised).map Prod.snd).map (·.key) =
      Keyed.keys (rejoined p originals revised) := by
  rw [Keyed.keys, List.map_map]
  refine List.map_congr_left fun e he ↦ ?_
  rw [rejoined_eq_overlay hkeys] at he
  rcases Keyed.mem_or_mem_of_mem_overlay he with he | he
  · rw [declaredChildren] at he
    split at he
    · obtain ⟨c, -, rfl⟩ := List.mem_map.1 he
      rfl
    · exact absurd he List.not_mem_nil
  · obtain ⟨c, -, rfl⟩ := List.mem_map.1 he
    rfl

/-- The keys of the originals stay, and those of the other declared children follow. -/
theorem keys_rejoined (hdeclared : Keyed.Distinct (declaredChildren p.settle)) :
    Keyed.keys (rejoined p originals revised) =
      originals.map (·.key) ++
        (Keyed.keys (declaredChildren p.settle)).filter (· ∉ originals.map (·.key)) := by
  rw [rejoined_eq_overlay hkeys, Keyed.keys_overlay hdeclared, keys_map_key, hkeys]

theorem distinct_rejoined (hdeclared : Keyed.Distinct (declaredChildren p.settle))
    (horiginals : (originals.map (·.key)).Nodup) :
    Keyed.Distinct (rejoined p originals revised) := by
  rw [rejoined_eq_overlay hkeys]
  refine hdeclared.overlay ?_
  rwa [Keyed.Distinct, keys_map_key, hkeys]

end

/-! ### One state -/

/-- A state that is given children is sound if they have distinct keys, a compound one starts in one
of them, and a parallel one is given some. An atomic state starts in the first one, so nothing is
asked of it. -/
theorem Regular.attach {s : State} {children : List State} (hs : s.children = [])
    (hsource : ∀ t ∈ s.transitions, t.source = s.id) (hkeys : (children.map (·.key)).Nodup)
    (hstart : ∀ start, s.initial? = some start → start ∈ children.map (·.key))
    (hparallel : s.type = .parallel → children ≠ []) : (s.attach none children).Regular := by
  have hsource' : ∀ t ∈ (s.attach none children).transitions,
      t.source = (s.attach none children).id := by
    rw [toFacets_attach]
    exact hsource
  rcases kind_attach_cases s none children hs with
    ⟨start, hk, hk'⟩ | ⟨hk, hk'⟩ | ⟨first, rest, -, hcons, hk'⟩ |
      ⟨⟨hcompound, hparallel'⟩, -, hsame⟩
  · have hinitial : s.initial? = some start := by rw [initial?, hk]
    exact .of_compound hsource' hk' hkeys (hstart start hinitial)
  · have htype : s.type = .parallel := congrArg StateKind.type hk
    exact .of_parallel hsource' hk' hkeys (hparallel htype)
  · have hfirst : first.key ∈ children.map (·.key) := by
      rw [hcons]
      exact List.mem_cons_self
    exact .of_compound hsource' hk' hkeys hfirst
  · rw [hsame] at hsource' ⊢
    exact .of_leaf hsource' hs hcompound hparallel'

variable (hmapper : mapper.Edits Edit.KeepsSound)

include hmapper

/-- **Each state stays sound.** -/
theorem Regular.revise {s : State} (hs : s.Regular) :
    (s.revise mapper path data).1.Regular := by
  obtain ⟨edits, hedits, heq⟩ := hmapper data s path
  have hbase : (mapper data (.of s) path).1.base = s.bare := hmapper.base_eq data s path
  have hstart : (mapper data (.of s) path).1.initial = none := by
    rw [heq]
    exact PendingState.initial_edit_of_keepsSound hedits s
  have hrevised := map_key_reviseEach (pathBelow mapper path data s) (dataBelow mapper path data s)
    hmapper s.children
  have hdistinct := distinct_declaredChildren path data hmapper s
  have hinitial : (mapper data (.of s) path).1.settle.state.initial? = s.initial? := by
    rw [PendingState.initial?_settle _ hstart, hbase, initial?_bare]
  have hattach : (s.revise mapper path data).1 =
      (mapper data (.of s) path).1.settle.state.attach none
        ((rejoined (mapper data (.of s) path).1 s.children
          (reviseEach mapper (pathBelow mapper path data s) (dataBelow mapper path data s)
            s.children).1).map Prod.snd) := by
    rw [revise_eq, ← hstart]
    rfl
  -- the keys are those that were there, followed by new ones
  have hkeys := (map_key_rejoined (p := (mapper data (.of s) path).1) hrevised).trans
    (keys_rejoined hrevised hdistinct)
  rw [hattach]
  refine .attach (children_settle_answer path data hmapper s) ?_ ?_ ?_ ?_
  · refine fun t ht ↦ PendingState.source_eq_of_mem_settledTransitions _ ?_ ht
    rw [hbase]
    exact hs.source_eq
  · rw [map_key_rejoined hrevised]
    exact distinct_rejoined hrevised hdistinct hs.keys_nodup
  · intro start hmem
    rw [hinitial] at hmem
    rw [hkeys]
    exact List.mem_append_left _ (hs.initial_mem start hmem)
  · intro htype hempty
    rw [type_settle_answer path data hmapper] at htype
    rw [hempty, List.map_nil] at hkeys
    have hnone : s.children.map (·.key) = [] := (List.append_eq_nil_iff.1 hkeys.symm).1
    exact hs.children_ne_nil htype (List.map_eq_nil_iff.1 hnone)

/-! ### The whole tree -/

/-- Every state of a declared tree is sound. -/
theorem regular_of_mem_declaredChildren (s : State) {e : String × State}
    (he : e ∈ declaredChildren (mapper data (.of s) path).1.settle) :
    ∀ t ∈ e.2.preorder, t.Regular := by
  obtain ⟨edits, hedits, heq⟩ := hmapper data s path
  rw [declaredChildren] at he
  split at he
  · next states hstates =>
    obtain ⟨c, hc, rfl⟩ := List.mem_map.1 he
    rw [Import.declared_eq_map] at hc
    obtain ⟨d, hd, rfl⟩ := List.mem_map.1 hc
    rw [heq] at hstates
    obtain ⟨hstartable, hkeys⟩ :=
      (PendingState.declared_edit_of_keepsSound hedits s hstates).2 d hd
    exact Import.regular_of_mem_preorder_value_state hstartable hkeys
  · exact absurd he List.not_mem_nil

/-- All states stay sound, and those that are declared are. -/
theorem regular_of_mem_preorder_revise {s : State} (hs : ∀ u ∈ s.preorder, u.Regular) :
    ∀ t ∈ (s.revise mapper path data).1.preorder, t.Regular := by
  induction s using State.induction generalizing path data with
  | step s ih =>
    intro t ht
    rcases mem_preorder_iff.1 ht with rfl | ⟨c, hc, ht⟩
    · exact (hs s (mem_preorder_self s)).revise path data hmapper
    · rw [revise_eq] at hc
      have hmem := mem_of_mem_children_attach (children_settle_answer path data hmapper s) hc
      obtain ⟨e, he, rfl⟩ := List.mem_map.1 hmem
      rcases Keyed.mem_or_mem_of_mem_overlay he with he | he
      · exact regular_of_mem_declaredChildren path data hmapper s he t ht
      · obtain ⟨u, hu, next, heq⟩ := exists_of_mem_reviseEach mapper _ _ (List.of_mem_zip he).2
        rw [heq] at ht
        exact ih u hu _ next (fun v hv ↦ hs v (mem_preorder_of_mem_children hu hv)) t ht

end State

/-- **A revision keeps states sound.** Let the children of every state have distinct keys, every
compound state start in one of its children, every parallel state have a child, and all transitions
start at their states. A mapper that says of no state where it starts and declares only children
that start below themselves keeps all this, for the states that were there, for atomic states that
become compound, and for the declared states. -/
theorem Machine.regular_revise {σ : Type} {mapper : Mapper σ} {m : Machine}
    (hm : ∀ s ∈ m.root.preorder, s.Regular) (hmapper : mapper.Edits Edit.KeepsSound) (data : σ) :
    ∀ s ∈ (m.revise mapper data).1.root.preorder, s.Regular :=
  State.regular_of_mem_preorder_revise [] data hmapper hm

/-- A way out for every state: two regions, of which one is compound and does not say where it
starts. -/
def StateConfig.exits : StateConfig where
  type := some .parallel
  states := [
    ("stairs", { states := [("up", {}), ("down", { on := [("jump", [.to ["up", "#street"]])] })] }),
    ("window", {})]

/-- Every state gets a way out, which takes the place of a state that is locked. -/
def Mapper.escape : Mapper (List String) :=
  trail [.setChildren [("locked", .exits)]]

theorem Machine.regular_revise_door :
    (∀ s ∈ door.root.preorder, s.Regular) ∧ Mapper.escape.Edits Edit.KeepsSound ∧
      (∀ s ∈ (door.revise Mapper.escape []).1.root.preorder, s.Regular) ∧
        ((door.revise Mapper.escape []).1.root.at? [0]).map (fun s ↦ s.preorder.map (·.id)) =
          some ["door.shut", "door.shut.free", "door.shut.free.locked",
            "door.shut.free.locked.stairs", "door.shut.free.locked.stairs.up",
            "door.shut.free.locked.stairs.down", "door.shut.free.locked.window",
            "door.shut.locked", "door.shut.locked.stairs", "door.shut.locked.stairs.up",
            "door.shut.locked.stairs.down", "door.shut.locked.window"] := by
  have hsound : ∀ s ∈ door.root.preorder, s.Regular := by decide
  have hexits : StateConfig.exits.Startable ∧ StateConfig.exits.KeysDistinct := by decide
  have hedits : Mapper.escape.Edits Edit.KeepsSound :=
    Mapper.edits_trail (fun _ ↦ trivial)
      (List.forall_mem_singleton.2 (List.forall_mem_singleton.2 hexits))
  exact ⟨hsound, hedits, regular_revise hsound hedits [], by rfl⟩

end Statechart
