import Statechart.Proofs.Tree
import Statechart.Revision.Tree

/-!
# Revised states before and after they get their children

What a chain of edits leaves alone whatever it is, and what `State.attach` makes of a finished
state. A state keeps its id, its key and, before it gets children, its kind; children change the
kind of an atomic state only, and a leaf of another kind does not take them.

`Mapper.Edits` is the condition on a mapper under which all this is known of a revision: it answers
with the state that it was handed, with edits made.
-/

namespace Statechart

/-! ### Chains of edits -/

namespace PendingState

variable (p : PendingState) (s : State)

@[simp] theorem base_edit (edits : List Edit) : (p.edit edits).base = p.base := by
  induction edits generalizing p with
  | nil => rfl
  | cons e edits ih =>
    have hstep : p.edit (e :: edits) = (e.apply p).edit edits := rfl
    rw [hstep, ih, Edit.base_apply]

/-- What every edit keeps is kept by a chain of edits. -/
theorem edit_induction {motive : PendingState → Prop} {edits : List Edit} {p : PendingState}
    (start : motive p) (step : ∀ q, ∀ e ∈ edits, motive q → motive (e.apply q)) :
    motive (p.edit edits) := by
  induction edits generalizing p with
  | nil => exact start
  | cons e edits ih =>
    exact ih (step p e List.mem_cons_self start) fun q e he ↦ step q e (List.mem_cons_of_mem _ he)

theorem base_of : (of s).base = s.bare := rfl

theorem declared_edit {edits : List Edit} (h : ∀ states, Edit.setChildren states ∉ edits) :
    (p.edit edits).declared = p.declared := by
  refine edit_induction (motive := fun q ↦ q.declared = p.declared) rfl fun q e he hq ↦ ?_
  rw [← hq]
  cases e with
  | setChildren states => exact absurd he (h states)
  | _ => rfl

/-- What is declared is put together from the entries of one of the edits. -/
theorem exists_of_declared_edit {edits : List Edit} {states : List (String × StateConfig)}
    (h : ((of s).edit edits).declared = some states) :
    ∃ entries, Edit.setChildren entries ∈ edits ∧ states = Keyed.ofEntries entries := by
  refine edit_induction (motive := fun q ↦ ∀ states, q.declared = some states →
    ∃ entries, Edit.setChildren entries ∈ edits ∧ states = Keyed.ofEntries entries)
    (fun _ hnone ↦ by cases hnone) (fun q e he hq ↦ ?_) states h
  cases e with
  | setChildren entries =>
    intro states heq
    exact ⟨entries, he, (Option.some.inj heq).symm⟩
  | _ => exact hq

theorem initial_edit {edits : List Edit} (h : ∀ key, Edit.setInitial key ∉ edits) :
    (p.edit edits).initial = p.initial := by
  refine edit_induction (motive := fun q ↦ q.initial = p.initial) rfl fun q e he hq ↦ ?_
  rw [← hq]
  cases e with
  | setInitial key => exact absurd he (h key)
  | _ => rfl

/-! ### The finished state -/

@[simp] theorem id_settle : p.settle.state.id = p.base.id := rfl

@[simp] theorem key_settle : p.settle.state.key = p.base.key := rfl

@[simp] theorem type_settle : p.settle.state.type = p.base.type := by
  rw [State.type, settle, settledKind, State.type]
  cases p.base.kind <;> rfl

@[simp] theorem children_settle : p.settle.state.children = p.base.children := by
  rw [State.children, settle, settledKind, State.children]
  cases p.base.kind <;> rfl

theorem initial?_settle (h : p.initial = none) : p.settle.state.initial? = p.base.initial? := by
  simp only [State.initial?, settle, settledKind, h]
  cases p.base.kind <;> rfl

end PendingState

/-! ### Mappers that edit -/

/-- The mapper answers with the state that it is handed, with allowed edits made. -/
def Mapper.Edits {σ : Type} (mapper : Mapper σ) (allowed : Edit → Prop) : Prop :=
  ∀ (data : σ) (s : State) (path : List State), ∃ edits : List Edit, (∀ e ∈ edits, allowed e) ∧
    (mapper data (.of s) path).1 = (PendingState.of s).edit edits

namespace Mapper.Edits

variable {σ : Type} {mapper : Mapper σ} {allowed : Edit → Prop} (h : mapper.Edits allowed)
  (data : σ) (s : State) (path : List State)

include h

theorem base_eq : (mapper data (.of s) path).1.base = s.bare := by
  obtain ⟨edits, -, hedits⟩ := h data s path
  rw [hedits, PendingState.base_edit, PendingState.base_of]

end Mapper.Edits

/-! ### States without children -/

namespace State

variable (s : State) (initial : Option String) (children : List State)

@[simp] theorem type_bare : s.bare.type = s.type := by
  rw [bare, type, type]
  cases s.kind <;> rfl

@[simp] theorem children_bare : s.bare.children = [] := by
  rw [bare, State.children]
  cases s.kind <;> rfl

@[simp] theorem initial?_bare : s.bare.initial? = s.initial? := by
  rw [bare, initial?, initial?]
  cases s.kind <;> rfl

/-- Only compound and parallel states have children. -/
theorem children_eq_nil_of_type {s : State}
    (h : s.type = .atomic ∨ s.type = .final ∨ s.type = .history) : s.children = [] := by
  obtain ⟨f, k⟩ := s
  cases k with
  | compound | parallel => rcases h with h | h | h <;> cases h
  | atomic | final | history => rfl

/-! ### Giving children to a state -/

@[simp] theorem toFacets_attach : (s.attach initial children).toFacets = s.toFacets := by
  obtain ⟨f, k⟩ := s
  cases k with
  | atomic => cases children <;> rfl
  | _ => rfl

/-- **What becomes of a state without children** that is given some. A compound or parallel state
has them. An atomic state that gets any becomes compound and starts in the first one if nothing else
is said. Every other state stays as it is. -/
theorem kind_attach_cases (hs : s.children = []) :
    (∃ start, s.kind = .compound start [] ∧
        (s.attach initial children).kind = .compound start children) ∨
      (s.kind = .parallel [] ∧ (s.attach initial children).kind = .parallel children) ∨
        (∃ first rest, s.kind = .atomic ∧ children = first :: rest ∧
          (s.attach initial children).kind = .compound (initial.getD first.key) children) ∨
          (s.type ≠ .compound ∧ s.type ≠ .parallel) ∧ (s.type = .atomic → children = []) ∧
            s.attach initial children = s := by
  obtain ⟨f, k⟩ := s
  cases k with
  | compound start states =>
    obtain rfl : states = [] := hs
    exact .inl ⟨start, rfl, rfl⟩
  | parallel states =>
    obtain rfl : states = [] := hs
    exact .inr (.inl ⟨rfl, rfl⟩)
  | atomic =>
    cases children with
    | nil => exact .inr (.inr (.inr ⟨⟨nofun, nofun⟩, fun _ ↦ rfl, rfl⟩))
    | cons first rest => exact .inr (.inr (.inl ⟨first, rest, rfl, rfl, rfl⟩))
  | final | history => exact .inr (.inr (.inr ⟨⟨nofun, nofun⟩, nofun, rfl⟩))

variable {s initial children}

/-- A state has no other children than those that it is given. -/
theorem mem_of_mem_children_attach {c : State} (hs : s.children = [])
    (hc : c ∈ (s.attach initial children).children) : c ∈ children := by
  rw [State.children] at hc
  rcases kind_attach_cases s initial children hs with
    ⟨start, -, hk⟩ | ⟨-, hk⟩ | ⟨first, rest, -, -, hk⟩ | ⟨-, -, hsame⟩
  · rwa [hk] at hc
  · rwa [hk] at hc
  · rwa [hk] at hc
  · rw [hsame, ← State.children, hs] at hc
    exact absurd hc List.not_mem_nil

/-- An atomic state that is given children starts in the first one if nothing else is said. -/
theorem kind_attach_of_atomic (h : s.type = .atomic) (first : State) (rest : List State) :
    (s.attach initial (first :: rest)).kind =
      .compound (initial.getD first.key) (first :: rest) := by
  obtain ⟨f, k⟩ := s
  cases k with
  | atomic => rfl
  | _ => cases h

/-- A final state and a history take no children. -/
theorem attach_eq_self (h : s.type = .final ∨ s.type = .history) :
    s.attach initial children = s := by
  obtain ⟨f, k⟩ := s
  cases k with
  | final | history => rfl
  | _ => rcases h with h | h <;> cases h

/-- If no final state and no history is given children, what a state is given are its children. -/
theorem children_attach (hs : s.children = [])
    (hleaf : s.type = .final ∨ s.type = .history → children = []) :
    (s.attach initial children).children = children := by
  rw [State.children]
  rcases kind_attach_cases s initial children hs with
    ⟨start, -, hk⟩ | ⟨-, hk⟩ | ⟨first, rest, -, -, hk⟩ | ⟨⟨hcompound, hparallel⟩, hatomic, hsame⟩
  · rw [hk]
    rfl
  · rw [hk]
    rfl
  · rw [hk]
    rfl
  · have hnil : children = [] := by
      cases htype : s.type with
      | atomic => exact hatomic htype
      | compound => exact absurd htype hcompound
      | parallel => exact absurd htype hparallel
      | final => exact hleaf (.inl htype)
      | history => exact hleaf (.inr htype)
    rw [hsame, ← State.children, hs, hnil]

/-- If no atomic state is given children, a state stays of its kind. -/
theorem type_attach (hs : s.children = []) (hatomic : s.type = .atomic → children = []) :
    (s.attach initial children).type = s.type := by
  rw [type, type]
  rcases kind_attach_cases s initial children hs with
    ⟨start, hk, hk'⟩ | ⟨hk, hk'⟩ | ⟨first, rest, hk, hcons, -⟩ | ⟨-, -, hsame⟩
  · rw [hk, hk']
    rfl
  · rw [hk, hk']
    rfl
  · have hnil : children = [] := hatomic (congrArg StateKind.type hk)
    exact absurd (hcons.symm.trans hnil) (List.cons_ne_nil first rest)
  · rw [hsame]

/-- What is given to a state and what it has are told apart by taking the children away. -/
theorem bare_attach (hs : s.children = []) (hatomic : s.type ≠ .atomic) :
    (s.attach initial children).bare = s := by
  have hkind : (s.attach initial children).kind.bare = s.kind := by
    rcases kind_attach_cases s initial children hs with
      ⟨start, hk, hk'⟩ | ⟨hk, hk'⟩ | ⟨first, rest, hk, -, -⟩ | ⟨-, -, hsame⟩
    · rw [hk, hk']
      rfl
    · rw [hk, hk']
      rfl
    · exact absurd (congrArg StateKind.type hk) hatomic
    · rw [hsame]
      obtain ⟨f, k⟩ := s
      cases k with
      | compound | parallel => exact congrArg _ hs.symm
      | atomic | final | history => rfl
  rw [bare, toFacets_attach, hkind]
  cases s
  rfl

end State

end Statechart
