import Statechart.Proofs.Revision.Eager
import Statechart.Proofs.Transitions

/-!
# Two revisions in one

A second revision starts from what the first one has finished: transitions that were turned back
from their structured form take it again, and what was pending is pending no more. A mapper that
makes both chains of edits at once never finishes a state in between.

An edit is *plain* if this makes no difference to it. Such an edit has an effect on finished states
(`Edit.act`), and finishing a state after plain edits is the same as finishing it before and having
their effects on it (`PendingState.settle_edit_of_plain`). Two revisions by plain edits that depend
on nothing but the id of a state are therefore one: `Machine.map_map_byId`.

Left out are transforming transitions, since the structured form of a finished transition may differ
from the one that it came from, and all edits of invocations, since their transitions are made when
a state is finished.
-/

namespace Statechart

namespace Edit

/-- Does it make no difference whether the edit is made before or after a state is finished? -/
def Plain : Edit → Prop
  | .clearTransitions | .appendTransition _ | .setTransitions _ => True
  | .clearEntry | .appendEntry _ | .transformEntry _ | .setEntry _ => True
  | .clearExit | .appendExit _ | .transformExit _ | .setExit _ => True
  | .setInitial _ | .setTags _ | .setMetadata _ | .setDescription _ | .clearDescription => True
  | .setHistory _ | .setDoneData _ => True
  | .transformTransitions _ | .clearInvocations | .appendInvocation _ => False
  | .transformInvocations _ | .setInvocations _ | .setChildren _ => False

/-- The effect of a plain edit on a finished state. -/
def act (s : State) : Edit → State
  | .clearTransitions => { s with transitions := [] }
  | .appendTransition t => { s with transitions := s.transitions ++ [.ofConfig s.id t] }
  | .setTransitions ts => { s with transitions := ts.map (.ofConfig s.id) }
  | .clearEntry => { s with entry := [] }
  | .appendEntry a => { s with entry := s.entry ++ [a] }
  | .transformEntry f => { s with entry := s.entry.map f }
  | .setEntry as => { s with entry := as }
  | .clearExit => { s with exit := [] }
  | .appendExit a => { s with exit := s.exit ++ [a] }
  | .transformExit f => { s with exit := s.exit.map f }
  | .setExit as => { s with exit := as }
  | .setInitial key => { s with kind := s.kind.withInitial key }
  | .setTags tags => { s with tags := tags }
  | .setMetadata value => { s with metadata := if value.isNull then none else some value }
  | .setDescription text => { s with description := some text }
  | .clearDescription => { s with description := none }
  | .setHistory kind => { s with kind := s.kind.withHistory kind }
  | .setDoneData doneData => { s with kind := s.kind.withDoneData doneData }
  | _ => s

theorem Plain.ne_setChildren {e : Edit} (h : e.Plain) (states : List (String × StateConfig)) :
    e ≠ .setChildren states := by
  rintro rfl
  exact h

end Edit

/-! ### One state -/

namespace PendingState

variable {p : PendingState}

theorem settle_of (s : State) : (of s).settle.state = s.bare := by
  obtain ⟨f, k⟩ := s
  cases k <;> rfl

theorem invocations_apply_of_plain {e : Edit} (h : e.Plain) :
    (e.apply p).invocations = p.invocations := by
  cases e with
  | clearInvocations | appendInvocation | transformInvocations | setInvocations => exact h.elim
  | _ => rfl

/-- Where no invocations were written, the transitions are those of the structured form. -/
theorem settledTransitions_of_invocations_eq_none (hp : p.invocations = none)
    (hsource : ∀ t ∈ p.base.transitions, t.source = p.base.id) :
    p.settledTransitions = p.currentTransitions.map (Transition.ofConfig p.base.id) := by
  rw [settledTransitions_eq_current p hsource, currentInvocations, hp, Option.getD_none,
    invocationTransitions_toConfig, List.append_nil]

/-- **A plain edit** has the same effect before and after a state is finished. -/
theorem settle_apply_of_plain {e : Edit} (h : e.Plain) (hp : p.invocations = none)
    (hsource : ∀ t ∈ p.base.transitions, t.source = p.base.id) :
    (e.apply p).settle.state = e.act p.settle.state := by
  have htransitions : ∀ ts, ({ p with transitions := some ts } : PendingState).settle.state =
      { p.settle.state with transitions := ts.map (.ofConfig p.base.id) } := by
    intro ts
    simp only [settle, settledTransitions, hp]
    rfl
  -- an edit of what only the kind has leaves the facets as they are
  have hkind : ∀ k : StateKind State, (e.apply p).settledKind = k →
      (e.apply p).settle.state.toFacets = p.settle.state.toFacets →
        (e.apply p).settle.state = { p.settle.state with kind := k } := by
    rintro _ rfl hfacets
    exact congrArg (State.mk · (e.apply p).settledKind) hfacets
  cases e with
  | clearTransitions => exact htransitions []
  | setTransitions ts => exact htransitions ts
  | appendTransition t =>
    have hcurrent : p.settle.state.transitions =
        p.currentTransitions.map (Transition.ofConfig p.base.id) :=
      settledTransitions_of_invocations_eq_none hp hsource
    rw [Edit.apply, htransitions, Edit.act, hcurrent, List.map_append]
    rfl
  | setInitial | setHistory | setDoneData =>
    exact hkind _ (congrArg EagerState.kind (eager_apply p _)) rfl
  | transformTransitions | clearInvocations | appendInvocation | transformInvocations
  | setInvocations | setChildren => exact h.elim
  | _ => rfl

/-- **A chain of plain edits** has the effects of its edits on the finished state, one after the
other. -/
theorem settle_edit_of_plain {edits : List Edit} (h : ∀ e ∈ edits, e.Plain)
    (hp : p.invocations = none) (hsource : ∀ t ∈ p.base.transitions, t.source = p.base.id) :
    (p.edit edits).settle.state = edits.foldl Edit.act p.settle.state := by
  induction edits generalizing p with
  | nil => rfl
  | cons e edits ih =>
    obtain ⟨he, hedits⟩ := List.forall_mem_cons.1 h
    have hrest := ih (p := e.apply p) hedits (by rw [invocations_apply_of_plain he, hp])
      (by rw [Edit.base_apply]; exact hsource)
    rw [List.foldl_cons, ← settle_apply_of_plain he hp hsource]
    exact hrest

end PendingState

/-- The mapper that looks at nothing but the id of a state and makes the edits of its chain. -/
def Mapper.byId (chain : String → List Edit) : Mapper Unit :=
  pure fun p _ ↦ p.edit (chain p.base.id)

/-! ### The tree -/

namespace State

/-- Giving children to a state and taking them away again. -/
theorem bare_attach_of_atomic {s : State} {initial : Option String} {children : List State}
    (hs : s.children = []) (hatomic : s.type = .atomic → children = []) :
    (s.attach initial children).bare = s := by
  by_cases h : s.type = .atomic
  · obtain rfl : children = [] := hatomic h
    obtain ⟨f, k⟩ := s
    cases k with
    | atomic => rfl
    | compound | parallel | final | history => cases h
  · exact bare_attach hs h

/-- Without its children a revised state is what the mapper made of it. -/
theorem bare_revise_of_declared_eq_none {σ : Type} {mapper : Mapper σ} {allowed : Edit → Prop}
    (path : List State) (data : σ) {s : State}
    (hnone : (mapper data (.of s) path).1.declared = none) (hmapper : mapper.Edits allowed) :
    (s.revise mapper path data).1.bare = (mapper data (.of s) path).1.settle.state := by
  rw [revise_of_declared_eq_none path data hnone]
  refine bare_attach_of_atomic (children_settle_answer path data hmapper s) fun hatomic ↦ ?_
  rw [type_settle_answer path data hmapper] at hatomic
  exact reviseEach_children_eq_nil path data (.inl hatomic)

/-- If two revisions of each state are one, so are two revisions of states one after the other. -/
theorem reviseEach_reviseEach {first second both : Mapper Unit} {ss : List State}
    (h : ∀ s ∈ ss, ∀ path path' path'',
      ((s.revise first path ()).1.revise second path' ()).1 = (s.revise both path'' ()).1)
    (path path' path'' : List State) :
    (reviseEach second path' () (reviseEach first path () ss).1).1 =
      (reviseEach both path'' () ss).1 := by
  induction ss with
  | nil => rfl
  | cons s ss ih =>
    obtain ⟨hs, hss⟩ := List.forall_mem_cons.1 h
    simp only [reviseEach_cons]
    rw [hs, ih hss]

section

variable {f : String → List Edit} (hf : ∀ id, ∀ e ∈ f id, e.Plain) (path : List State) {s : State}

include hf

theorem edits_byId : (Mapper.byId f).Edits Edit.Plain := fun _ s _ ↦ ⟨f s.id, hf s.id, rfl⟩

theorem declared_byId (s : State) : (Mapper.byId f () (.of s) path).1.declared = none :=
  PendingState.declared_edit _ fun states hmem ↦ (hf _ _ hmem).ne_setChildren states rfl

theorem id_revise_byId : (s.revise (.byId f) path ()).1.id = s.id :=
  id_revise path () (edits_byId hf) s

theorem children_revise_byId :
    (s.revise (.byId f) path ()).1.children =
      (reviseEach (.byId f) (pathBelow (.byId f) path () s) () s.children).1 :=
  children_revise_of_declared_eq_none path () (declared_byId hf path s) (edits_byId hf)

variable (hsource : ∀ t ∈ s.transitions, t.source = s.id)

include hsource

/-- Without its children a revised state is the state with the effects of the edits. -/
theorem bare_revise_byId :
    (s.revise (.byId f) path ()).1.bare = (f s.id).foldl Edit.act s.bare := by
  rw [bare_revise_of_declared_eq_none path () (declared_byId hf path s) (edits_byId hf),
    ← PendingState.settle_of]
  exact PendingState.settle_edit_of_plain (hf s.id) rfl hsource

/-- A revised state is the source of its transitions. -/
theorem source_eq_of_mem_revise_byId :
    ∀ t ∈ (s.revise (.byId f) path ()).1.transitions,
      t.source = (s.revise (.byId f) path ()).1.id := by
  intro t ht
  rw [revise_eq] at ht ⊢
  simp only [toFacets_rejoin] at ht ⊢
  have hbase : (Mapper.byId f () (.of s) path).1.base = s.bare := (edits_byId hf).base_eq () s path
  refine PendingState.source_eq_of_mem_settledTransitions _ ?_ ht
  rw [hbase]
  exact hsource

end

/-- **Two revisions of a tree are one**, if both make plain edits that depend on ids alone. -/
theorem revise_revise_byId {f g : String → List Edit} (hf : ∀ id, ∀ e ∈ f id, e.Plain)
    (hg : ∀ id, ∀ e ∈ g id, e.Plain) {s : State}
    (hsource : ∀ u ∈ s.preorder, ∀ t ∈ u.transitions, t.source = u.id)
    (path path' path'' : List State) :
    ((s.revise (.byId f) path ()).1.revise (.byId g) path' ()).1 =
      (s.revise (.byId fun id ↦ f id ++ g id) path'' ()).1 := by
  have hboth : ∀ id, ∀ e ∈ f id ++ g id, e.Plain := fun id e he ↦
    (List.mem_append.1 he).elim (hf id e) (hg id e)
  induction s using State.induction generalizing path path' path'' with
  | step s ih =>
    have hself : ∀ t ∈ s.transitions, t.source = s.id := hsource s (mem_preorder_self s)
    apply eq_of_bare_eq
    · rw [bare_revise_byId hg path' (source_eq_of_mem_revise_byId hf path hself),
        bare_revise_byId hf path hself, bare_revise_byId hboth path'' hself,
        id_revise_byId hf path, List.foldl_append]
    · rw [children_revise_byId hg, children_revise_byId hf, children_revise_byId hboth]
      exact reviseEach_reviseEach (fun c hc ↦
        ih c hc fun u hu ↦ hsource u (mem_preorder_of_mem_children hc hu)) _ _ _

end State

namespace Machine

/-- **Two revisions are one.** Let all transitions of a machine start at the state that declares
them, and let two mappers choose plain edits by nothing but the id of a state: edits of transitions
other than transforming them, edits of actions, and edits of the start, the tags, the metadata, the
description, the kind of a history and the mapper of a final state. Revising the machine by the one
and then by the other is revising it by the mapper that makes the edits of both. -/
theorem map_map_byId (m : Machine) {f g : String → List Edit} (hf : ∀ id, ∀ e ∈ f id, e.Plain)
    (hg : ∀ id, ∀ e ∈ g id, e.Plain)
    (hsource : ∀ s ∈ m.root.preorder, ∀ t ∈ s.transitions, t.source = s.id) :
    (m.map fun p _ ↦ p.edit (f p.base.id)).map (fun p _ ↦ p.edit (g p.base.id)) =
      m.map fun p _ ↦ (p.edit (f p.base.id)).edit (g p.base.id) := by
  have hboth : ∀ p : PendingState,
      (p.edit (f p.base.id)).edit (g p.base.id) = p.edit (f p.base.id ++ g p.base.id) :=
    fun p ↦ List.foldl_append.symm
  simp only [hboth]
  exact congrArg (Machine.mk · m.context) (State.revise_revise_byId hf hg hsource [] [] [])

/-- A player with a history and a final state. The id of one state starts like an absolute
reference. -/
def player : Machine where
  root := .of "player" "player" (.compound "off" [
    ⟨{ Facets.named "player.off" "off" with
        entry := [.named "dim"]
        transitions := [{ Transition.of "player.off" "press" with targets := ["#on"] }] }, .atomic⟩,
    .of "#on" "on" .atomic,
    .of "player.last" "last" (.history .shallow),
    .of "player.broken" "broken" (.final none)])
  context := .null

end Machine

/-- Edits of the root, and others of the states below it. -/
def Edit.repaired (id : String) : List Edit :=
  if id = "player" then [.setInitial "last", .setTags ["old"]]
  else [.appendTransition ((TransitionConfig.to ["##on", "player.last"]).onEvent "reset"),
    .appendEntry (.named "log"), .setHistory .deep]

/-- Edits of one state, and others of all others. -/
def Edit.relabelled (id : String) : List Edit :=
  if id = "#on" then [.clearTransitions, .setTags ["loud"], .setExit [.named "fade"]]
  else [.appendTransition (TransitionConfig.to []),
    .transformEntry fun a ↦ .named ("new " ++ a.name),
    .setMetadata .null, .setInitial "on", .setHistory .shallow]

theorem Machine.map_map_byId_player :
    (∀ id, ∀ e ∈ Edit.repaired id, e.Plain) ∧ (∀ id, ∀ e ∈ Edit.relabelled id, e.Plain) ∧
      (∀ s ∈ player.root.preorder, ∀ t ∈ s.transitions, t.source = s.id) ∧
      (player.map fun p _ ↦ p.edit (Edit.repaired p.base.id)).map
          (fun p _ ↦ p.edit (Edit.relabelled p.base.id)) =
        player.map (fun p _ ↦ (p.edit (Edit.repaired p.base.id)).edit (Edit.relabelled p.base.id)) ∧
      let root := (player.map fun p _ ↦
        (p.edit (Edit.repaired p.base.id)).edit (Edit.relabelled p.base.id)).root
      root.initial? = some "on" ∧
        root.preorder.map (fun s ↦ s.transitions.map (·.event)) =
          [[""], ["press", "reset", ""], [], ["reset", ""], ["reset", ""]] ∧
        root.preorder.map (fun s ↦ s.entry.map (·.name)) =
          [[], ["new dim", "new log"], ["log"], ["new log"], ["new log"]] := by
  have hrepaired : ∀ id, ∀ e ∈ Edit.repaired id, e.Plain := by
    intro id
    rw [Edit.repaired]
    split <;> simp [Edit.Plain]
  have hrelabelled : ∀ id, ∀ e ∈ Edit.relabelled id, e.Plain := by
    intro id
    rw [Edit.relabelled]
    split <;> simp [Edit.Plain]
  have hsource : ∀ s ∈ player.root.preorder, ∀ t ∈ s.transitions, t.source = s.id := by decide
  exact ⟨hrepaired, hrelabelled, hsource, map_map_byId player hrepaired hrelabelled hsource,
    by decide, by decide +kernel, by decide +kernel⟩

end Statechart
