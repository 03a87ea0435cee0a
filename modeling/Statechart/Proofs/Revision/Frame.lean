import Statechart.Proofs.Facets
import Statechart.Proofs.Revision.Ancestors
import Statechart.Revision.Standard

/-!
# What a revision leaves as it is

Every edit writes one facet of a pending state (`Edit.facet?`), and a facet that no edit of a chain
has written comes out exactly as it was, whatever the kind of the state
(`PendingState.same_settle`). Writing invocations writes transitions too, since the handlers of an
invocation become transitions.

A mapper that declares no children leaves the tree as it is, position by position, so the law for
one state is a law for the whole machine: `Machine.revise_frame`. A mapper that changes nothing
gives back the machine.
-/

namespace Statechart

/-- What a state carries besides its names and its children. -/
inductive Facet where
  | entry
  | exit
  | invocations
  | transitions
  | tags
  | metadata
  | description
  | initial
  | history
  | doneData
deriving DecidableEq

/-- The two states carry the same in this facet. -/
def Facet.Same (s t : State) : Facet → Prop
  | .entry => t.entry = s.entry
  | .exit => t.exit = s.exit
  | .invocations => t.invocations = s.invocations
  | .transitions => t.transitions = s.transitions
  | .tags => t.tags = s.tags
  | .metadata => t.metadata = s.metadata
  | .description => t.description = s.description
  | .initial => t.initial? = s.initial?
  | .history => t.history? = s.history?
  | .doneData => t.doneData? = s.doneData?

/-- The facet that an edit writes. Declaring children writes none. -/
def Edit.facet? : Edit → Option Facet
  | .clearTransitions | .appendTransition _ | .transformTransitions _ | .setTransitions _ =>
    some .transitions
  | .clearInvocations | .appendInvocation _ | .transformInvocations _ | .setInvocations _ =>
    some .invocations
  | .clearEntry | .appendEntry _ | .transformEntry _ | .setEntry _ => some .entry
  | .clearExit | .appendExit _ | .transformExit _ | .setExit _ => some .exit
  | .setInitial _ => some .initial
  | .setTags _ => some .tags
  | .setMetadata _ => some .metadata
  | .setDescription _ | .clearDescription => some .description
  | .setHistory _ => some .history
  | .setDoneData _ => some .doneData
  | .setChildren _ => none

/-- Does the edit decide on the facet? What decides on invocations decides on transitions. -/
def Edit.Addresses (e : Edit) (facet : Facet) : Prop :=
  e.facet? = some facet ∨ facet = .transitions ∧ e.facet? = some .invocations

namespace PendingState

variable (p : PendingState)

/-- Was the facet written by an edit? -/
def written : Facet → Bool
  | .entry => p.entry.isSome
  | .exit => p.exit.isSome
  | .invocations => p.invocations.isSome
  | .transitions => p.transitions.isSome
  | .tags => p.tags.isSome
  | .metadata => p.metadata.isSome
  | .description => p.description.isSome
  | .initial => p.initial.isSome
  | .history => p.history.isSome
  | .doneData => p.doneData.isSome

/-! ### One state -/

/-- An edit writes its facet and no other. -/
theorem written_apply (e : Edit) (facet : Facet) :
    (e.apply p).written facet = (e.facet? == some facet || p.written facet) := by
  cases e <;> cases facet <;> rfl

theorem written_edit_of {s : State} {edits : List Edit} {facet : Facet}
    (h : ∀ e ∈ edits, e.facet? ≠ some facet) : ((of s).edit edits).written facet = false := by
  refine edit_induction (motive := fun q ↦ q.written facet = false) ?_ fun q e he hq ↦ ?_
  · cases facet <;> rfl
  · rw [written_apply, hq, Bool.or_false]
    exact beq_eq_false_iff_ne.2 (h e he)

/-- **What is not written is kept.** A facet that was not written is in the finished state what it
was; transitions are also written with the invocations. -/
theorem same_settle {facet : Facet} (h : p.written facet = false)
    (h' : facet = .transitions → p.written .invocations = false) :
    facet.Same p.base p.settle.state := by
  have hnone : ∀ {α : Type} {o : Option α}, o.isSome = false → o = none := fun h ↦
    Option.isNone_iff_eq_none.1 (Option.isSome_eq_false_iff.1 h)
  have hgetD : ∀ {α : Type} {o : Option α} (x : α), o.isSome = false → o.getD x = x := fun x h ↦ by
    rw [hnone h, Option.getD_none]
  cases facet with
  | entry | exit | tags | metadata | description => exact hgetD _ h
  | invocations =>
    have hinvocations : p.invocations = none := hnone h
    simp only [Facet.Same, settle, hinvocations]
  | transitions =>
    have htransitions : p.transitions = none := hnone h
    have hinvocations : p.invocations = none := hnone (h' rfl)
    simp only [Facet.Same, settle, settledTransitions, htransitions, hinvocations]
  | initial => exact initial?_settle p (hnone h)
  | history =>
    have hhistory : p.history = none := hnone h
    simp only [Facet.Same, State.history?, settle, settledKind, hhistory]
    cases p.base.kind <;> rfl
  | doneData =>
    have hdoneData : p.doneData = none := hnone h
    simp only [Facet.Same, State.doneData?, settle, settledKind, hdoneData]
    cases p.base.kind <;> rfl

end PendingState

namespace Facet

theorem Same.trans {facet : Facet} {s t u : State} (h : facet.Same s t) (h' : facet.Same t u) :
    facet.Same s u := by
  cases facet <;> exact Eq.trans h' h

theorem same_bare (facet : Facet) (s : State) : facet.Same s s.bare := by
  obtain ⟨f, k⟩ := s
  cases facet <;> cases k <;> rfl

/-- Giving children to a state changes no facet, unless an atomic state becomes compound. -/
theorem same_attach (facet : Facet) {s : State} {initial : Option String} {children : List State}
    (hs : s.children = []) (hatomic : s.type = .atomic → children = []) :
    facet.Same s (s.attach initial children) := by
  obtain ⟨f, k⟩ := s
  cases k with
  | atomic =>
    obtain rfl : children = [] := hatomic rfl
    cases facet <;> rfl
  | compound | parallel | final | history => cases facet <;> rfl

end Facet

namespace State

/-- What a state is called and of what kind it is. -/
def names (s : State) : String × String × StateType := (s.id, s.key, s.type)

variable {σ : Type} {mapper : Mapper σ} {allowed : Edit → Prop} (path : List State) (data : σ)

/-! ### The tree -/

section

variable {s : State} (hnone : (mapper data (.of s) path).1.declared = none)

include hnone

/-- Without declared children a state has the revised ones. -/
theorem revise_of_declared_eq_none :
    (s.revise mapper path data).1 =
      (mapper data (.of s) path).1.settle.state.attach (mapper data (.of s) path).1.settle.initial
        (reviseEach mapper (pathBelow mapper path data s) (dataBelow mapper path data s)
          s.children).1 := by
  have hapart : (⟨data, .of s, path⟩ : Call σ).Apart mapper := by
    intro key hkey
    rw [Call.answer, hnone] at hkey
    exact absurd hkey List.not_mem_nil
  have hdeclared : declaredChildren (mapper data (.of s) path).1.settle = [] := by
    rw [declaredChildren, PendingState.settle, hnone]
  rw [revise_eq]
  simp only [rejoin]
  rw [map_snd_rejoined path data (length_reviseEach ..) hapart, hdeclared, List.map_nil,
    List.append_nil]

omit hnone in
/-- A leaf has no children to revise. -/
theorem reviseEach_children_eq_nil
    (hleaf : s.type = .atomic ∨ s.type = .final ∨ s.type = .history) :
    (reviseEach mapper (pathBelow mapper path data s) (dataBelow mapper path data s)
      s.children).1 = [] := by
  rw [children_eq_nil_of_type hleaf, reviseEach]

variable (hmapper : mapper.Edits allowed)

include hmapper

theorem names_revise : (s.revise mapper path data).1.names = s.names := by
  have htype : (s.revise mapper path data).1.type = s.type := by
    rw [revise_of_declared_eq_none path data hnone,
      type_attach (children_settle_answer path data hmapper s) fun hatomic ↦ ?_,
      type_settle_answer path data hmapper]
    rw [type_settle_answer path data hmapper] at hatomic
    exact reviseEach_children_eq_nil path data (.inl hatomic)
  rw [names, names, id_revise path data hmapper, key_revise path data hmapper, htype]

theorem children_revise_of_declared_eq_none :
    (s.revise mapper path data).1.children =
      (reviseEach mapper (pathBelow mapper path data s) (dataBelow mapper path data s)
        s.children).1 := by
  rw [revise_of_declared_eq_none path data hnone]
  refine children_attach (children_settle_answer path data hmapper s) fun hleaf ↦ ?_
  rw [type_settle_answer path data hmapper] at hleaf
  exact reviseEach_children_eq_nil path data (.inr hleaf)

/-- A facet that was not decided on is the same in the revised state. -/
theorem same_revise {facet : Facet} (h : (mapper data (.of s) path).1.written facet = false)
    (h' : facet = .transitions → (mapper data (.of s) path).1.written .invocations = false) :
    facet.Same s (s.revise mapper path data).1 := by
  have hsettle := PendingState.same_settle (mapper data (.of s) path).1 h h'
  rw [hmapper.base_eq] at hsettle
  rw [revise_of_declared_eq_none path data hnone]
  refine ((facet.same_bare s).trans hsettle).trans
    (facet.same_attach (children_settle_answer path data hmapper s) fun hatomic ↦ ?_)
  rw [type_settle_answer path data hmapper] at hatomic
  exact reviseEach_children_eq_nil path data (.inl hatomic)

end

/-- **Without declared children a revision leaves the tree as it is.** The revised states are found
where they were, and nowhere else. -/
theorem at?_revise_of_declared_eq_none (hmapper : mapper.Edits allowed)
    (hnone : ∀ data s path, (mapper data (.of s) path).1.declared = none) (s : State)
    (a : List Nat) :
    (s.revise mapper path data).1.at? a =
      (s.stopAt? mapper path data a).map (Stop.result mapper) := by
  induction a generalizing path data s with
  | nil => rfl
  | cons i a ih =>
    rw [at?_cons, children_revise_of_declared_eq_none path data (hnone data s path) hmapper,
      getElem?_reviseEach, stopAt?_cons, stopIn?]
    cases s.children[i]? with
    | none => rfl
    | some c => exact ih _ _ c

/-- **A mapper that changes facets alone** changes those of each state by itself. -/
theorem revise_eq_mapFacets {g : Facets → Facets}
    (hnone : ∀ data s path, (mapper data (.of s) path).1.declared = none)
    (hsettle : ∀ data s path,
      (mapper data (.of s) path).1.settle.state = ⟨g s.toFacets, s.kind.bare⟩) (s : State) :
    (s.revise mapper path data).1 = s.mapFacets g := by
  induction path, data, s using revise_induction mapper (fun path data ss ↦
    (reviseEach mapper path data ss).1 = ss.map (mapFacets g)) with
  | nil path data => rfl
  | cons path data s ss hs hss => rw [reviseEach_cons, hs, hss, List.map_cons]
  | step path data s heach =>
    rw [revise_of_declared_eq_none path data (hnone data s path), heach, hsettle]
    obtain ⟨f, k⟩ := s
    rw [mapFacets]
    cases k with
    | compound initial states => rw [mapFacetsKind, mapFacetsAll_eq_map]; rfl
    | parallel states => rw [mapFacetsKind, mapFacetsAll_eq_map]; rfl
    | atomic | final _ | history _ => rfl

/-- A mapper that changes nothing gives back the state. -/
theorem revise_identity (s : State) : s.revise Mapper.identity path data = (s, data) := by
  induction path, data, s using revise_induction Mapper.identity (fun path data ss ↦
    reviseEach Mapper.identity path data ss = (ss, data)) with
  | nil path data => rfl
  | cons path data s ss hs hss =>
    rw [hs] at hss
    rw [reviseEach_cons, hs, hss]
  | step path data s heach =>
    have hbelow : reviseEach Mapper.identity (pathBelow Mapper.identity path data s)
        (dataBelow Mapper.identity path data s) s.children = (s.children, data) := heach
    have hfirst : (s.revise Mapper.identity path data).1 = s := by
      rw [revise_of_declared_eq_none path data rfl, hbelow]
      obtain ⟨f, k⟩ := s
      cases k with
      | atomic | compound | parallel | final | history => rfl
    have hsecond : (s.revise Mapper.identity path data).2 = data := by
      rw [revise_eq, hbelow]
    exact Prod.ext hfirst hsecond

end State

namespace Machine

variable {σ : Type} {mapper : Mapper σ}

/-- **A revision changes what it is told to change and nothing else.** A mapper that only makes
edits and declares no children leaves the context and the tree as they are, with the id, the key and
the kind of the state at each position. At each state, a facet that none of the edits made there
addresses is exactly what it was. A mapper that changes nothing gives back the machine. -/
theorem revise_frame (m : Machine) (data : σ)
    (hmapper : mapper.Edits fun e ↦ ∀ states, e ≠ .setChildren states) :
    (m.revise mapper data).1.context = m.context ∧
      (∀ a, ((m.revise mapper data).1.root.at? a).map State.names =
        (m.root.at? a).map State.names) ∧
      m.calls mapper data = m.root.positions.map (m.callAt mapper data) ∧
      (∀ a s t, m.root.at? a = some s → (m.revise mapper data).1.root.at? a = some t →
        ∀ edits, (m.callAt mapper data a).answer mapper = (PendingState.of s).edit edits →
          ∀ facet, (∀ e ∈ edits, ¬ e.Addresses facet) → facet.Same s t) ∧
      m.revise Mapper.identity data = (m, data) := by
  have hnone : ∀ data s path, (mapper data (.of s) path).1.declared = none := by
    intro data s path
    obtain ⟨edits, hedits, heq⟩ := hmapper data s path
    rw [heq, PendingState.declared_edit _ fun states hmem ↦ hedits _ hmem states rfl]
    rfl
  have hat : ∀ a, (m.revise mapper data).1.root.at? a =
      (m.root.stopAt? mapper [] data a).map (Stop.result mapper) :=
    State.at?_revise_of_declared_eq_none [] data hmapper hnone m.root
  refine ⟨rfl, fun a ↦ ?_, calls_eq_map_callAt m data, ?_, ?_⟩
  · rw [hat, ← State.map_state_stopAt? mapper [] data m.root a, Option.map_map, Option.map_map]
    refine congrArg (Option.map · _) (funext fun t ↦ ?_)
    exact State.names_revise t.path t.data (hnone t.data t.state t.path) hmapper
  · intro a s t hs ht edits hedits facet hfacet
    obtain ⟨stop, hstop, rfl⟩ := State.exists_stopAt? mapper [] data hs
    rw [hat, hstop] at ht
    obtain rfl := Option.some.inj ht
    rw [callAt_eq m data hstop] at hedits
    have hwritten : ∀ other : Facet, (∀ e ∈ edits, e.facet? ≠ some other) →
        (mapper stop.data (.of stop.state) stop.path).1.written other = false := fun other hother ↦
      (congrArg (PendingState.written · other) hedits).trans (PendingState.written_edit_of hother)
    refine State.same_revise stop.path stop.data (hnone _ _ _) hmapper
      (hwritten facet fun e he h ↦ hfacet e he (.inl h)) fun htransitions ↦ ?_
    exact hwritten .invocations fun e he h ↦ hfacet e he (.inr ⟨htransitions, h⟩)
  · rw [revise, State.revise_identity]

theorem revise_frame_door :
    (Mapper.trail [.clearEntry]).Edits (fun e ↦ ∀ states, e ≠ .setChildren states) ∧
      ∃ t, (door.revise (Mapper.trail [.clearEntry]) []).1.root.at? [0, 1] = some t ∧
        t.names = ("door.shut.locked", "locked", .atomic) ∧
          t.tags = ["door", "door.shut", "door.shut.free"] ∧ t.exit = [.named "click"] ∧
            t.transitions = [.of "door.shut.locked" "turn"] ∧
              t.description = some "needs the key" := by
  have hedits : (Mapper.trail [.clearEntry]).Edits fun e ↦ ∀ states, e ≠ .setChildren states :=
    Mapper.edits_trail (fun _ _ ↦ nofun) (List.forall_mem_singleton.2 fun _ ↦ nofun)
  obtain ⟨-, hnames, -, hframe, -⟩ := revise_frame door [] hedits
  have hlocked : ((door.revise (Mapper.trail [.clearEntry]) []).1.root.at? [0, 1]).map State.names =
      some ("door.shut.locked", "locked", .atomic) := hnames [0, 1]
  obtain ⟨t, ht, hnames⟩ := Option.map_eq_some_iff.1 hlocked
  have hsame := hframe [0, 1] _ t rfl ht
    [.setTags ["door", "door.shut", "door.shut.free"], .clearEntry] rfl
  have hother : ∀ facet : Facet, facet ≠ .tags → facet ≠ .entry →
      ∀ e ∈ [Edit.setTags ["door", "door.shut", "door.shut.free"], .clearEntry],
        ¬ e.Addresses facet := by
    intro facet htags hentry e he
    rcases List.mem_pair.1 he with rfl | rfl <;> rintro (h | ⟨-, h⟩) <;> cases h
    · exact htags rfl
    · exact hentry rfl
  have htags : ((door.revise (Mapper.trail [.clearEntry]) []).1.root.at? [0, 1]).map (·.tags) =
      some ["door", "door.shut", "door.shut.free"] := by rfl
  rw [ht] at htags
  exact ⟨hedits, t, ht, hnames, Option.some.inj htags, hsame .exit (hother _ nofun nofun),
    hsame .transitions (hother _ nofun nofun), hsame .description (hother _ nofun nofun)⟩

end Machine

end Statechart
