import Statechart.Proofs.Revision.Calls

/-!
# The ancestors that a mapper sees

A mapper is called once for every state of a machine, in the order of the walk, and never for a
declared one. On the path that it is handed stands, for each ancestor, what it made of that one in
an earlier call: `Machine.calls_of_edits`.

Path entries are taken before the children are attached. They are nevertheless the states of the
revised machine with their children taken away, as long as no declared child takes the place of
another one: a state with children keeps its kind, and the revised children keep their positions
(`State.at?_revise`).
-/

namespace Statechart

variable {σ : Type} {mapper : Mapper σ} {allowed : Edit → Prop}

namespace State

variable (path : List State) (data : σ)

/-! ### The stops above a state -/

/-- The path at a state is as long as its position, and for every position above there is a stop
that the entry comes from. -/
theorem exists_stopAt?_take {s : State} {a : List Nat} {t : Stop σ}
    (h : s.stopAt? mapper [] data a = some t) :
    t.path.length = a.length ∧
      ∀ i < a.length, ∃ u, s.stopAt? mapper [] data (a.take i) = some u ∧
        t.path[i]? = some (u.call.settled mapper) ∧ u.state.children ≠ [] := by
  have hpath := map_some_path mapper [] data h
  rw [List.map_nil, List.nil_append] at hpath
  constructor
  · have hlength := congrArg List.length hpath
    rwa [List.length_map, List.length_map, List.length_range] at hlength
  · intro i hi
    obtain ⟨v, hv, hne⟩ := exists_at?_take (at?_of_stopAt? mapper [] data h) hi
    obtain ⟨u, hu, rfl⟩ := exists_stopAt? mapper [] data hv
    have hentry := congrArg (·[i]?) hpath
    simp only [List.getElem?_map, List.getElem?_range hi, Option.map_some, hu] at hentry
    obtain ⟨entry, hget, heq⟩ := Option.map_eq_some_iff.1 hentry
    exact ⟨u, hu, hget.trans heq, hne⟩

/-! ### Where a state stands in the revised tree -/

/-- If no declared child takes the place of another one, the declared children follow the revised
ones. -/
theorem map_snd_rejoined {s : State} {revised : List State}
    (hlength : revised.length = s.children.length)
    (hapart : (⟨data, .of s, path⟩ : Call σ).Apart mapper) :
    (rejoined (mapper data (.of s) path).1 s.children revised).map Prod.snd =
      revised ++ (declaredChildren (mapper data (.of s) path).1.settle).map Prod.snd := by
  have hzip : Keyed.keys ((s.children.map (·.key)).zip revised) = s.children.map (·.key) :=
    List.map_fst_zip (by rw [List.length_map]; exact Nat.le_of_eq hlength.symm)
  have hkeys : ∀ k ∈ Keyed.keys (declaredChildren (mapper data (.of s) path).1.settle),
      k ∉ Keyed.keys ((s.children.map (·.key)).zip revised) := by
    rw [keys_declaredChildren, hzip]
    exact hapart
  rw [rejoined, Keyed.overlay_eq_append hkeys, List.map_append,
    List.map_snd_zip (by rw [List.length_map]; exact Nat.le_of_eq hlength)]

/-- A state that can have children has the revised ones with the declared ones laid over them. -/
theorem children_revise (hmapper : mapper.Edits allowed) {s : State}
    (hleaf : ¬ (s.type = .final ∨ s.type = .history)) :
    (s.revise mapper path data).1.children =
      (rejoined (mapper data (.of s) path).1 s.children
        (reviseEach mapper (pathBelow mapper path data s) (dataBelow mapper path data s)
          s.children).1).map Prod.snd := by
  rw [revise_eq]
  refine children_attach (children_settle_answer path data hmapper s) fun h ↦ absurd ?_ hleaf
  rwa [type_settle_answer path data hmapper] at h

/-- A child under whose key none is declared is revised where it stands. -/
theorem getElem?_children_revise (hmapper : mapper.Edits allowed) {s c : State} {i : Nat}
    (hc : s.children[i]? = some c)
    (hkept : c.key ∉ Keyed.keys ((⟨data, .of s, path⟩ : Call σ).declared mapper)) :
    (s.revise mapper path data).1.children[i]? =
      some (c.revise mapper (pathBelow mapper path data s)
        (reviseEach mapper (pathBelow mapper path data s) (dataBelow mapper path data s)
          (s.children.take i)).2).1 := by
  have hzip : ((s.children.map (·.key)).zip (reviseEach mapper (pathBelow mapper path data s)
      (dataBelow mapper path data s) s.children).1)[i]? =
        some (c.key, (c.revise mapper (pathBelow mapper path data s)
          (reviseEach mapper (pathBelow mapper path data s) (dataBelow mapper path data s)
            (s.children.take i)).2).1) := by
    rw [List.getElem?_zip_eq_some, List.getElem?_map, getElem?_reviseEach, hc]
    exact ⟨rfl, rfl⟩
  have hkeys : c.key ∉ Keyed.keys (declaredChildren (mapper data (.of s) path).1.settle) := by
    rw [keys_declaredChildren]
    rwa [Call.keys_declared] at hkept
  have hleaf : ¬ (s.type = .final ∨ s.type = .history) := fun h ↦
    absurd (children_eq_nil_of_type (.inr h)) (List.ne_nil_of_mem (List.mem_of_getElem? hc))
  rw [children_revise path data hmapper hleaf, List.getElem?_map, rejoined,
    Keyed.getElem?_overlay hzip hkeys]
  rfl

/-- **A state is revised where it stands**, if no declared child takes the place of it or of a state
above it. -/
theorem at?_revise (hmapper : mapper.Edits allowed) {s : State} {a : List Nat} {t : Stop σ}
    (h : s.stopAt? mapper path data a = some t)
    (hkept : ∀ i < a.length, ∀ u v, s.stopAt? mapper path data (a.take i) = some u →
      s.at? (a.take (i + 1)) = some v → v.key ∉ Keyed.keys (u.call.declared mapper)) :
    (s.revise mapper path data).1.at? a = some (t.result mapper) := by
  induction a generalizing s path data with
  | nil =>
    obtain rfl := Option.some.inj h
    rfl
  | cons n a ih =>
    rw [stopAt?_cons] at h
    obtain ⟨c, hc, ht⟩ := Option.bind_eq_some_iff.1 h
    have hchild := getElem?_children_revise path data hmapper hc
      (hkept 0 (Nat.succ_pos _) _ c rfl (at?_cons_eq_some_iff.2 ⟨c, hc, rfl⟩))
    refine at?_cons_eq_some_iff.2 ⟨_, hchild, ih _ _ ht fun i hi u v hu hv ↦ ?_⟩
    refine hkept (i + 1) (Nat.succ_lt_succ hi) u v ?_ (at?_cons_eq_some_iff.2 ⟨c, hc, hv⟩)
    rw [List.take_succ_cons, stopAt?_cons, stopIn?, hc]
    exact hu

/-- A revised state with children is what was made of it before it got them. -/
theorem bare_result (hmapper : mapper.Edits allowed) {t : Stop σ} (hne : t.state.children ≠ []) :
    (t.result mapper).bare = t.call.settled mapper := by
  have hatomic : t.state.type ≠ .atomic := fun h ↦ hne (children_eq_nil_of_type (.inl h))
  rw [Stop.result, revise_eq]
  refine bare_attach (children_settle_answer t.path t.data hmapper t.state) ?_
  rwa [type_settle_answer t.path t.data hmapper]

end State

/-! ### The calls of a whole revision -/

/-- The call for the state at a position. Where there is none it is the call for the root. -/
def Machine.callAt (mapper : Mapper σ) (m : Machine) (data : σ) (a : List Nat) : Call σ :=
  ((m.root.stopAt? mapper [] data a).map Stop.call).getD ⟨data, .of m.root, []⟩

namespace Machine

variable (m : Machine) (data : σ)

theorem calls_eq : m.calls mapper data = m.root.calls mapper [] data := by
  rw [calls, revise, State.revise_logged]
  rfl

theorem callAt_eq {a : List Nat} {t : Stop σ} (h : m.root.stopAt? mapper [] data a = some t) :
    m.callAt mapper data a = t.call := by
  rw [callAt, h]
  rfl

/-- The calls are those for the positions, each in its turn. -/
theorem calls_eq_map_callAt :
    m.calls mapper data = m.root.positions.map (m.callAt mapper data) := by
  rw [calls_eq, State.calls, ← List.filterMap_eq_map]
  refine List.filterMap_congr fun a ha ↦ ?_
  obtain ⟨s, hs⟩ := State.mem_positions_iff.1 ha
  obtain ⟨t, ht, -⟩ := State.exists_stopAt? mapper [] data hs
  rw [Function.comp_apply, callAt_eq m data ht, ht]
  rfl

/-- At a state the path holds what the mapper made of the states above in earlier calls. -/
theorem path_callAt (hmapper : mapper.Edits allowed) {a : List Nat} {s : State}
    (hs : m.root.at? a = some s) :
    (m.callAt mapper data a).pending = .of s ∧
      (m.callAt mapper data a).path.length = a.length ∧
        ∀ i < a.length,
          [m.callAt mapper data (a.take i), m.callAt mapper data a].Sublist (m.calls mapper data) ∧
            (m.callAt mapper data a).path[i]? =
                some ((m.callAt mapper data (a.take i)).settled mapper) ∧
              ((m.callAt mapper data (a.take i)).settled mapper).children = [] := by
  obtain ⟨t, ht, rfl⟩ := State.exists_stopAt? mapper [] data hs
  obtain ⟨hlength, habove⟩ := State.exists_stopAt?_take data ht
  rw [callAt_eq m data ht]
  refine ⟨rfl, hlength, fun i hi ↦ ?_⟩
  obtain ⟨u, hu, hentry, -⟩ := habove i hi
  rw [← callAt_eq m data ht, callAt_eq m data hu]
  refine ⟨?_, ?_, ?_⟩
  · have hpositions : [a.take i, a].Sublist m.root.positions :=
      State.take_sublist_positions (State.mem_positions_iff.2 ⟨_, hs⟩) hi
    have hmap := hpositions.map (m.callAt mapper data)
    rwa [← calls_eq_map_callAt, List.map_cons, callAt_eq m data hu] at hmap
  · rw [callAt_eq m data ht]
    exact hentry
  · exact State.children_settle_answer u.path u.data hmapper u.state

/-- If no declared child takes the place of another one, the path holds the states above of the
revised machine, without their children. -/
theorem path_callAt_eq_bare (hmapper : mapper.Edits allowed)
    (hapart : ∀ c ∈ m.calls mapper data, c.Apart mapper) {a : List Nat} {s : State}
    (hs : m.root.at? a = some s) {i : Nat} (hi : i < a.length) :
    ∃ t, (m.revise mapper data).1.root.at? (a.take i) = some t ∧
      (m.callAt mapper data a).path[i]? = some t.bare := by
  obtain ⟨t, ht, rfl⟩ := State.exists_stopAt? mapper [] data hs
  obtain ⟨-, habove⟩ := State.exists_stopAt?_take data ht
  obtain ⟨u, hu, hentry, hne⟩ := habove i hi
  have hresult : (m.revise mapper data).1.root.at? (a.take i) = some (u.result mapper) := by
    refine State.at?_revise [] data hmapper hu fun j hj v w hv hw ↦ ?_
    have hcall : v.call ∈ m.calls mapper data := by
      rw [calls_eq]
      exact (State.mem_calls_iff mapper [] data).2 ⟨_, v, hv, rfl⟩
    obtain ⟨x, hx, hmem⟩ := State.exists_mem_children_of_at?_take hj hw
    obtain rfl := Option.some.inj ((State.at?_of_stopAt? mapper [] data hv).symm.trans hx)
    rw [Call.keys_declared]
    exact fun hkey ↦ hapart v.call hcall _ hkey (List.mem_map_of_mem hmem)
  refine ⟨u.result mapper, hresult, ?_⟩
  rw [callAt_eq m data ht, State.bare_result hmapper hne]
  exact hentry

/-- **A mapper sees every state once, with its revised ancestors.** Take a mapper that only makes
edits. Keeping a record of its calls changes nothing, its data goes from call to call, and the calls
are those for the states of the machine, each in its turn. At the state at a position the path is as
long as the position, and its entries are what the mapper made of the states above in earlier calls,
without children. If no declared child takes the place of another one, they are the states at those
positions of the revised machine with their children taken away. -/
theorem calls_of_edits (hmapper : mapper.Edits fun _ ↦ True) :
    m.revise mapper.logged (data, []) =
        ((m.revise mapper data).1, (m.revise mapper data).2, m.calls mapper data) ∧
      mapper.Passes data (m.revise mapper data).2 (m.calls mapper data) ∧
      (m.calls mapper data).map (·.pending) = m.root.preorder.map .of ∧
      m.calls mapper data = m.root.positions.map (m.callAt mapper data) ∧
      (∀ a s, m.root.at? a = some s →
        (m.callAt mapper data a).pending = .of s ∧
          (m.callAt mapper data a).path.length = a.length ∧
            ∀ i < a.length,
              [m.callAt mapper data (a.take i), m.callAt mapper data a].Sublist
                  (m.calls mapper data) ∧
                (m.callAt mapper data a).path[i]? =
                    some ((m.callAt mapper data (a.take i)).settled mapper) ∧
                  ((m.callAt mapper data (a.take i)).settled mapper).children = []) ∧
      ((∀ c ∈ m.calls mapper data, c.Apart mapper) →
        ∀ a s, m.root.at? a = some s → ∀ i < a.length,
          ∃ t, (m.revise mapper data).1.root.at? (a.take i) = some t ∧
            (m.callAt mapper data a).path[i]? = some t.bare) := by
  refine ⟨?_, ?_, ?_, calls_eq_map_callAt m data, fun a s ↦ path_callAt m data hmapper,
    fun hapart a s hs i ↦ path_callAt_eq_bare m data hmapper hapart hs⟩
  · rw [revise, State.revise_logged, calls_eq]
    rfl
  · rw [calls_eq]
    exact State.passes_calls mapper [] data m.root
  · rw [calls_eq, State.map_pending_calls]

end Machine

/-! ### A door -/

/-- A door that is shut or open, and locked or not while it is shut. -/
def Machine.door : Machine where
  root := .of "door" "door" (.compound "shut" [
    .of "door.shut" "shut" (.compound "free" [
      .of "door.shut.free" "free" .atomic,
      ⟨{ Facets.named "door.shut.locked" "locked" with
          exit := [.named "click"]
          transitions := [.of "door.shut.locked" "turn"]
          description := some "needs the key" }, .atomic⟩]),
    .of "door.open" "open" .atomic])
  context := .null

/-- Tag every state with the ids of the states before it, and make some more edits. -/
def Mapper.trail (more : List Edit) : Mapper (List String) := fun seen p _ ↦
  (p.edit (.setTags seen :: more), seen ++ [p.base.id])

theorem Mapper.edits_trail {more : List Edit} (htags : ∀ tags, allowed (.setTags tags))
    (hmore : ∀ e ∈ more, allowed e) : (trail more).Edits allowed :=
  fun seen _ _ ↦ ⟨.setTags seen :: more, List.forall_mem_cons.2 ⟨htags seen, hmore⟩, rfl⟩

/-- A child for every state. -/
def Mapper.alarmed : Mapper (List String) := trail [.setChildren [("alarm", .empty)]]

theorem Machine.calls_of_edits_door :
    Mapper.alarmed.Edits (fun _ ↦ True) ∧
      (door.calls Mapper.alarmed []).map (·.pending.base.id) =
          ["door", "door.shut", "door.shut.free", "door.shut.locked", "door.open"] ∧
        (∀ c ∈ door.calls Mapper.alarmed [], c.Apart Mapper.alarmed) ∧
          (door.callAt Mapper.alarmed [] [0, 1]).path.map (·.tags) = [[], ["door"]] ∧
            ∃ t, (door.revise Mapper.alarmed []).1.root.at? [0] = some t ∧
              t.children.map (·.key) = ["free", "locked", "alarm"] ∧
                (door.callAt Mapper.alarmed [] [0, 1]).path[1]? = some t.bare := by
  have hedits : Mapper.alarmed.Edits fun _ ↦ True :=
    Mapper.edits_trail (fun _ ↦ trivial) fun _ _ ↦ trivial
  have hapart : ∀ c ∈ door.calls Mapper.alarmed [], c.Apart Mapper.alarmed := by decide
  obtain ⟨-, -, hpending, -, -, hbare⟩ := calls_of_edits door [] hedits
  have hids : (door.calls Mapper.alarmed []).map (·.pending.base.id) =
      ((door.calls Mapper.alarmed []).map (·.pending)).map (·.base.id) := by
    rw [List.map_map]
    rfl
  obtain ⟨t, ht, hentry⟩ := hbare hapart [0, 1] _ rfl 1 (by decide)
  have hkeys : ((door.revise Mapper.alarmed []).1.root.at? ([0, 1].take 1)).map
      (fun u ↦ u.children.map (·.key)) = some ["free", "locked", "alarm"] := by rfl
  rw [ht] at hkeys
  refine ⟨hedits, ?_, hapart, by rfl, t, ht, Option.some.inj hkeys, hentry⟩
  rw [hids, hpending]
  rfl

end Statechart
