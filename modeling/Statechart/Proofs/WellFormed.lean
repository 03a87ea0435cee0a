import Statechart.Proofs.Tree

/-!
# Well-formed machines and configs

The maps of a config have each key once. For the children of a state this is
`StateConfig.KeysDistinct`; it holds of every config that is read or built by `Keyed.put`.

A machine is well formed (`Machine.WellFormed`) if its ids are distinct, every state is sound by
itself (`State.Regular`), and every target is the id of one of its states. `State.KeysDistinct` and
`State.Enterable` are parts of this that matter for machines that need not be well formed.
-/

namespace Statechart

/-- Every state of the config declares its children under distinct keys. -/
def StateConfig.KeysDistinct (c : StateConfig) : Prop := ∀ d ∈ c.preorder, Keyed.Distinct d.states

instance {α : Type} (es : List (String × α)) : Decidable (Keyed.Distinct es) :=
  inferInstanceAs (Decidable (Keyed.keys es).Nodup)

instance (c : StateConfig) : Decidable c.KeysDistinct :=
  inferInstanceAs (Decidable (∀ d ∈ c.preorder, Keyed.Distinct d.states))

namespace StateConfig

variable {c : StateConfig}

theorem KeysDistinct.states (h : c.KeysDistinct) : Keyed.Distinct c.states :=
  h c (mem_preorder_self c)

/-- Distinct keys in a config are distinct in the configs of the children. -/
theorem KeysDistinct.of_mem_states (h : c.KeysDistinct) {e : String × StateConfig}
    (he : e ∈ c.states) : e.2.KeysDistinct :=
  fun d hd ↦ h d (mem_preorder_of_mem_states he hd)

end StateConfig

/-- The children of every state of the tree have distinct keys. -/
def State.KeysDistinct (s : State) : Prop := ∀ u ∈ s.preorder, (u.children.map (·.key)).Nodup

instance (s : State) : Decidable s.KeysDistinct :=
  inferInstanceAs (Decidable (∀ u ∈ s.preorder, (u.children.map (·.key)).Nodup))

namespace State.KeysDistinct

variable {s c : State}

theorem keys_nodup (h : s.KeysDistinct) : (s.children.map (·.key)).Nodup :=
  h s (mem_preorder_self s)

/-- Distinct keys in a tree are distinct in the trees of the children. -/
theorem of_mem_children (h : s.KeysDistinct) (hc : c ∈ s.children) : c.KeysDistinct :=
  fun u hu ↦ h u (mem_preorder_of_mem_children hc hu)

end State.KeysDistinct

/-- What a state must be like to be entered. -/
structure State.Enterable (s : State) : Prop where
  /-- A compound state with children starts in one of them. -/
  initial_mem : s.children ≠ [] → ∀ key, s.initial? = some key → key ∈ s.children.map (·.key)
  /-- A parallel state has a child. -/
  children_ne_nil : s.type = .parallel → s.children ≠ []

/-- What a state must be like whatever the machine around it is. -/
structure State.Regular (s : State) : Prop where
  /-- No two children have the same key. -/
  keys_nodup : (s.children.map (·.key)).Nodup
  /-- A compound state starts in one of its children, so it has one. -/
  initial_mem : ∀ key, s.initial? = some key → key ∈ s.children.map (·.key)
  /-- A parallel state has a child. -/
  children_ne_nil : s.type = .parallel → s.children ≠ []
  /-- The transitions that a state holds start at it. -/
  source_eq : ∀ t ∈ s.transitions, t.source = s.id

instance (s : State) : Decidable s.Regular :=
  decidable_of_iff
    ((s.children.map (·.key)).Nodup ∧ (∀ key ∈ s.initial?, key ∈ s.children.map (·.key)) ∧
      (s.type = .parallel → s.children.isEmpty = false) ∧ ∀ t ∈ s.transitions, t.source = s.id)
    ⟨fun ⟨hkeys, hinitial, hparallel, hsource⟩ ↦
        ⟨hkeys, hinitial, fun h ↦ List.isEmpty_eq_false_iff.1 (hparallel h), hsource⟩,
      fun h ↦ ⟨h.keys_nodup, h.initial_mem,
        fun htype ↦ List.isEmpty_eq_false_iff.2 (h.children_ne_nil htype), h.source_eq⟩⟩

theorem State.Regular.enterable {s : State} (h : s.Regular) : s.Enterable :=
  ⟨fun _ ↦ h.initial_mem, h.children_ne_nil⟩

namespace State.Regular

variable {s : State} {children : List State} (hsource : ∀ t ∈ s.transitions, t.source = s.id)

include hsource

theorem of_leaf (hnil : s.children = []) (hcompound : s.type ≠ .compound)
    (hparallel : s.type ≠ .parallel) : s.Regular := by
  refine ⟨hnil ▸ List.nodup_nil, fun start hstart ↦ ?_, fun h ↦ absurd h hparallel, hsource⟩
  obtain ⟨f, k⟩ := s
  cases k with
  | compound => exact absurd rfl hcompound
  | _ => cases hstart

theorem of_compound {start : String} (hk : s.kind = .compound start children)
    (hkeys : (children.map (·.key)).Nodup) (hstart : start ∈ children.map (·.key)) :
    s.Regular := by
  obtain ⟨f, k⟩ := s
  cases hk
  exact ⟨hkeys, fun key hkey ↦ Option.some.inj hkey ▸ hstart, nofun, hsource⟩

theorem of_parallel (hk : s.kind = .parallel children)
    (hkeys : (children.map (·.key)).Nodup) (hne : children ≠ []) : s.Regular := by
  obtain ⟨f, k⟩ := s
  cases hk
  exact ⟨hkeys, nofun, fun _ ↦ hne, hsource⟩

end State.Regular

/-- What a tree of states must be like to be a machine. -/
structure Machine.WellFormed (m : Machine) : Prop where
  ids_nodup : m.root.ids.Nodup
  regular : ∀ s ∈ m.root.preorder, s.Regular
  target_mem : ∀ s ∈ m.root.preorder, ∀ t ∈ s.transitions, ∀ id ∈ t.targets, id ∈ m.root.ids

theorem Machine.WellFormed.keysDistinct {m : Machine} (h : m.WellFormed) : m.root.KeysDistinct :=
  fun s hs ↦ (h.regular s hs).keys_nodup

end Statechart
