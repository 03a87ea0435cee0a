import Statechart.Proofs.Import.Declared
import Statechart.Proofs.Keyed
import Statechart.Proofs.Revision.Settled

/-!
# One step of a revision

The recursion of a revision over a tree, put into two equations. `State.reviseEach` revises states
one after the other and hands the data of the mapper on. A state is revised by asking the mapper,
revising each of its children below the answer, and putting the declared children over the revised
ones (`State.revise_eq`); the declared ones have no say in how the others are revised.

If the mapper only makes edits, a revised state keeps its id and its key.
-/

namespace Statechart

namespace State

variable {σ : Type} (mapper : Mapper σ)

/-- Revise states one after the other. -/
def reviseEach (path : List State) (data : σ) : List State → List State × σ
  | [] => ([], data)
  | s :: ss =>
    let (first, data) := revise mapper path data s
    let (rest, data) := reviseEach path data ss
    (first :: rest, data)

/-- The children of a revised state: the revised ones, under the keys that they had, with the
declared ones laid over them. -/
def rejoined (p : PendingState) (originals revised : List State) : List (String × State) :=
  Keyed.overlay (declaredChildren p.settle) ((originals.map (·.key)).zip revised)

/-- The revised state with its children. -/
def rejoin (p : PendingState) (originals revised : List State) : State :=
  p.settle.state.attach p.settle.initial ((rejoined p originals revised).map Prod.snd)

/-- The children do not change the facets. -/
@[simp] theorem toFacets_rejoin (p : PendingState) (originals revised : List State) :
    (rejoin p originals revised).toFacets = p.settle.state.toFacets :=
  toFacets_attach _ _ _

variable (path : List State) (data : σ)

theorem reviseKind_eq_reviseAll (declared : List (String × State)) (k : StateKind State) :
    reviseKind mapper path declared data k = reviseAll mapper path declared data k.children := by
  cases k <;> rfl

theorem reviseAll_eq_overlay (declared : List (String × State)) (ss : List State) :
    reviseAll mapper path declared data ss =
      ((Keyed.overlay declared
          ((ss.map (·.key)).zip (reviseEach mapper path data ss).1)).map Prod.snd,
        (reviseEach mapper path data ss).2) := by
  induction ss generalizing declared data with
  | nil => rw [reviseAll]; rfl
  | cons s ss ih =>
    obtain ⟨f, k⟩ := s
    rw [reviseAll, reviseEach]
    simp only [ih, List.map_cons, List.zip_cons_cons, Keyed.overlay]
    cases Keyed.take? f.key declared <;> rfl

/-- The revised states above the children of a state. -/
def pathBelow (s : State) : List State := path ++ [(mapper data (.of s) path).1.settle.state]

/-- The data of the mapper once it has answered for a state. -/
def dataBelow (s : State) : σ := (mapper data (.of s) path).2

/-- **One step of a revision.** The mapper is asked first, then all below is revised with what it
answered, and the children are put together in the end. -/
theorem revise_eq (s : State) :
    s.revise mapper path data =
      let below := reviseEach mapper (pathBelow mapper path data s) (dataBelow mapper path data s)
        s.children
      (rejoin (mapper data (.of s) path).1 s.children below.1, below.2) := by
  obtain ⟨f, k⟩ := s
  rw [revise]
  simp only [reviseKind_eq_reviseAll, reviseAll_eq_overlay]
  rfl

/-! ### States one after the other -/

theorem reviseEach_cons (s : State) (ss : List State) :
    reviseEach mapper path data (s :: ss) =
      ((s.revise mapper path data).1 ::
          (reviseEach mapper path (s.revise mapper path data).2 ss).1,
        (reviseEach mapper path (s.revise mapper path data).2 ss).2) := rfl

@[simp] theorem length_reviseEach (ss : List State) :
    (reviseEach mapper path data ss).1.length = ss.length := by
  induction ss generalizing data with
  | nil => rfl
  | cons s ss ih => rw [reviseEach_cons, List.length_cons, ih, List.length_cons]

/-- Each state is revised with the data that those before it leave. -/
theorem getElem?_reviseEach (ss : List State) (i : Nat) :
    (reviseEach mapper path data ss).1[i]? =
      ss[i]?.map fun s ↦ (s.revise mapper path (reviseEach mapper path data (ss.take i)).2).1 := by
  induction ss generalizing data i with
  | nil => rfl
  | cons s ss ih =>
    rw [reviseEach_cons]
    cases i with
    | zero => rfl
    | succ i => exact ih _ i

theorem exists_of_mem_reviseEach {ss : List State} {t : State}
    (h : t ∈ (reviseEach mapper path data ss).1) :
    ∃ s ∈ ss, ∃ data, t = (s.revise mapper path data).1 := by
  obtain ⟨i, hi⟩ := List.mem_iff_getElem?.1 h
  rw [getElem?_reviseEach] at hi
  obtain ⟨s, hs, rfl⟩ := Option.map_eq_some_iff.1 hi
  exact ⟨s, List.mem_of_getElem? hs, _, rfl⟩

/-- **Induction over a revision.** What passes from a state and, with the data that it leaves, from
the states after it to them all, and from the children of a state to the state, holds of every
state. -/
@[elab_as_elim]
theorem revise_induction {motive : List State → σ → State → Prop}
    (each : List State → σ → List State → Prop) (nil : ∀ path data, each path data [])
    (cons : ∀ path data s ss, motive path data s → each path (s.revise mapper path data).2 ss →
      each path data (s :: ss))
    (step : ∀ path data s,
      each (pathBelow mapper path data s) (dataBelow mapper path data s) s.children →
        motive path data s)
    (path : List State) (data : σ) (s : State) : motive path data s := by
  induction s using State.induction generalizing path data with
  | step s ih =>
    have heach : ∀ ss : List State, (∀ c ∈ ss, ∀ path data, motive path data c) →
        ∀ path data, each path data ss := by
      intro ss hss
      induction ss with
      | nil => exact nil
      | cons c ss ihss =>
        intro path data
        obtain ⟨hc, hss⟩ := List.forall_mem_cons.1 hss
        exact cons path data c ss (hc path data) (ihss hss path _)
    exact step path data s (heach s.children ih _ _)

/-! ### Mappers that edit -/

variable {mapper} {allowed : Edit → Prop} (hmapper : mapper.Edits allowed)

include hmapper

theorem id_revise (s : State) : (s.revise mapper path data).1.id = s.id := by
  rw [revise_eq]
  simp only [toFacets_rejoin, PendingState.id_settle, hmapper.base_eq]
  rfl

theorem key_revise (s : State) : (s.revise mapper path data).1.key = s.key := by
  rw [revise_eq]
  simp only [toFacets_rejoin, PendingState.key_settle, hmapper.base_eq]
  rfl

theorem map_key_reviseEach (ss : List State) :
    (reviseEach mapper path data ss).1.map (·.key) = ss.map (·.key) := by
  induction ss generalizing data with
  | nil => rfl
  | cons s ss ih => rw [reviseEach_cons, List.map_cons, ih, key_revise path data hmapper,
      List.map_cons]

/-- A state is handed to the mapper and comes back without children. -/
theorem children_settle_answer (s : State) :
    (mapper data (.of s) path).1.settle.state.children = [] := by
  rw [PendingState.children_settle, hmapper.base_eq, children_bare]

/-- The declared children have distinct keys. -/
theorem distinct_declaredChildren (s : State) :
    Keyed.Distinct (declaredChildren (mapper data (.of s) path).1.settle) := by
  obtain ⟨edits, -, heq⟩ := hmapper data s path
  rw [Keyed.Distinct, keys_declaredChildren, heq]
  cases hstates : ((PendingState.of s).edit edits).declared with
  | none =>
    rw [PendingState.settle, hstates]
    exact List.nodup_nil
  | some states =>
    obtain ⟨entries, -, rfl⟩ := PendingState.exists_of_declared_edit s hstates
    rw [PendingState.settle, hstates]
    exact (Keyed.distinct_ofEntries_and_subset entries).1

theorem type_settle_answer (s : State) :
    (mapper data (.of s) path).1.settle.state.type = s.type := by
  rw [PendingState.type_settle, hmapper.base_eq, type_bare]

end State

end Statechart
