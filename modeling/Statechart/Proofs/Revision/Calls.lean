import Statechart.Proofs.Position
import Statechart.Proofs.Revision.Step

/-!
# The calls of a mapper

A mapper may carry data of its own, so it is told apart how often it is called, in which order and
with what. `Mapper.logged` is a mapper that does what another one does and keeps a record of its
calls besides; keeping it changes nothing (`State.revise_logged`), and what it has recorded in the
end are the calls of a revision, `Machine.calls`.

The states above a state are handed to the mapper on one path that grows and shrinks with the
recursion. That it always holds the revised ancestors is an invariant of going down a position:
`State.stopAt?` says where a revision stands when it comes to the state at a position, and
`State.map_some_path` what the path is there.
-/

namespace Statechart

/-- What a mapper is called with. -/
structure Call (σ : Type) where
  data : σ
  pending : PendingState
  path : List State

variable {σ : Type} (mapper : Mapper σ)

namespace Call

variable (c : Call σ)

/-- What the mapper makes of the state. -/
def answer : PendingState := (mapper c.data c.pending c.path).1

/-- The data that the mapper goes on with. -/
def dataAfter : σ := (mapper c.data c.pending c.path).2

/-- The revised state, without its children. -/
def settled : State := (c.answer mapper).settle.state

/-- The children that the mapper declares. -/
def declared : List (String × StateConfig) := (c.answer mapper).declared.getD []

/-- No child is declared under a key that a child has already. -/
def Apart : Prop :=
  ∀ key ∈ ((c.answer mapper).declared.map Keyed.keys).getD [], key ∉ c.pending.childKeys

instance : Decidable (c.Apart mapper) := inferInstanceAs (Decidable (∀ key ∈ _, _))

theorem keys_declared :
    Keyed.keys (c.declared mapper) = ((c.answer mapper).declared.map Keyed.keys).getD [] := by
  rw [declared]
  cases (c.answer mapper).declared <;> rfl

end Call

/-- The mapper, with a record of its calls. -/
def Mapper.logged : Mapper (σ × List (Call σ)) := fun kept p path ↦
  ((mapper kept.1 p path).1, (mapper kept.1 p path).2, kept.2 ++ [⟨kept.1, p, path⟩])

/-- The calls of the mapper while the machine is revised, in their order. -/
def Machine.calls (m : Machine) (data : σ) : List (Call σ) :=
  (m.revise mapper.logged (data, [])).2.2

/-- The data goes from `data` through the calls, one after the other, and becomes `last`. -/
def Mapper.Passes (data last : σ) : List (Call σ) → Prop
  | [] => data = last
  | c :: cs => c.data = data ∧ Passes (c.dataAfter mapper) last cs

theorem Mapper.Passes.append {mapper : Mapper σ} {data next last : σ} {cs ds : List (Call σ)}
    (hcs : mapper.Passes data next cs) (hds : mapper.Passes next last ds) :
    mapper.Passes data last (cs ++ ds) := by
  induction cs generalizing data with
  | nil =>
    obtain rfl : data = next := hcs
    exact hds
  | cons c cs ih => exact ⟨hcs.1, ih hcs.2⟩

/-- Where a revision stands when it comes to a state. -/
structure Stop (σ : Type) where
  path : List State
  data : σ
  state : State

namespace Stop

/-- The call for the state. -/
def call (t : Stop σ) : Call σ := ⟨t.data, .of t.state, t.path⟩

/-- The revised state. -/
def result (t : Stop σ) : State := (t.state.revise mapper t.path t.data).1

end Stop

namespace State

variable (path : List State) (data : σ)

/-! ### Stops -/

/-- Where the revision of a tree stands when it comes to the state at a position. -/
def stopAt? (path : List State) (data : σ) (s : State) : List Nat → Option (Stop σ)
  | [] => some ⟨path, data, s⟩
  | i :: a => s.children[i]?.bind fun c ↦
      stopAt? (pathBelow mapper path data s)
        (reviseEach mapper (pathBelow mapper path data s) (dataBelow mapper path data s)
          (s.children.take i)).2 c a

/-- Where the revision of the trees of a list stands when it comes to a position in one of them. -/
def stopIn? (path : List State) (data : σ) (ss : List State) (a : Nat × List Nat) :
    Option (Stop σ) :=
  ss[a.1]?.bind fun c ↦ c.stopAt? mapper path (reviseEach mapper path data (ss.take a.1)).2 a.2

theorem stopAt?_cons (s : State) (i : Nat) (a : List Nat) :
    s.stopAt? mapper path data (i :: a) =
      stopIn? mapper (pathBelow mapper path data s) (dataBelow mapper path data s) s.children
        (i, a) := rfl

/-- At a child the path holds the state above as well, and the data is what the children before it
leave. -/
theorem stopAt?_concat (s : State) (a : List Nat) (i : Nat) :
    s.stopAt? mapper path data (a ++ [i]) =
      (s.stopAt? mapper path data a).bind fun t ↦ t.state.children[i]?.map fun c ↦
        ⟨pathBelow mapper t.path t.data t.state,
          (reviseEach mapper (pathBelow mapper t.path t.data t.state)
            (dataBelow mapper t.path t.data t.state) (t.state.children.take i)).2, c⟩ := by
  induction a generalizing s path data with
  | nil => exact Option.map_eq_bind.symm
  | cons n a ih =>
    rw [List.cons_append, stopAt?_cons, stopAt?_cons, stopIn?, stopIn?]
    cases s.children[n]? with
    | none => rfl
    | some c => exact ih _ _ c

/-- A revision comes to every state. -/
theorem map_state_stopAt? (s : State) (a : List Nat) :
    (s.stopAt? mapper path data a).map Stop.state = s.at? a := by
  induction a generalizing s path data with
  | nil => rfl
  | cons i a ih =>
    rw [stopAt?_cons, stopIn?, at?_cons, Option.map_bind]
    cases s.children[i]? with
    | none => rfl
    | some c => exact ih _ _ c

theorem at?_of_stopAt? {s : State} {a : List Nat} {t : Stop σ}
    (h : s.stopAt? mapper path data a = some t) : s.at? a = some t.state := by
  rw [← map_state_stopAt? mapper path data s a, h]
  rfl

/-- There is a stop at every state. -/
theorem exists_stopAt? {s u : State} {a : List Nat} (h : s.at? a = some u) :
    ∃ t, s.stopAt? mapper path data a = some t ∧ t.state = u := by
  rw [← map_state_stopAt? mapper path data s a] at h
  exact Option.map_eq_some_iff.1 h

/-- **The path at a state.** Below the path that it starts with, it holds for each ancestor what the
mapper made of it, the uppermost first. -/
theorem map_some_path {s : State} {a : List Nat} {t : Stop σ}
    (h : s.stopAt? mapper path data a = some t) :
    t.path.map some =
      path.map some ++ (List.range a.length).map fun i ↦
        (s.stopAt? mapper path data (a.take i)).map fun u ↦ u.call.settled mapper := by
  induction a generalizing s path data with
  | nil =>
    obtain rfl := Option.some.inj h
    exact (List.append_nil _).symm
  | cons i a ih =>
    rw [stopAt?_cons] at h
    obtain ⟨c, hc, ht⟩ := Option.bind_eq_some_iff.1 h
    -- what is above the child is what is above the state, and the state
    have hbelow : ∀ b, s.stopAt? mapper path data (i :: b) = c.stopAt? mapper _ _ b := fun b ↦ by
      rw [stopAt?_cons, stopIn?, hc]
      rfl
    have hpath : (pathBelow mapper path data s).map some =
        path.map some ++ [some ((⟨data, .of s, path⟩ : Call σ).settled mapper)] :=
      List.map_append
    rw [ih _ _ ht, hpath, List.append_assoc, List.singleton_append, List.length_cons,
      List.range_succ_eq_map, List.map_cons, List.map_map]
    refine congrArg _ (congrArg _ (List.map_congr_left fun j _ ↦ ?_))
    rw [Function.comp_apply, List.take_succ_cons, hbelow]

/-! ### The record of calls -/

/-- The calls while a state and all below it are revised. -/
def calls (s : State) : List (Call σ) :=
  s.positions.filterMap fun a ↦ (s.stopAt? mapper path data a).map Stop.call

/-- The calls while states are revised one after the other. -/
def callsIn (ss : List State) : List (Call σ) :=
  (positionsAll ss).filterMap fun a ↦ (stopIn? mapper path data ss a).map Stop.call

theorem mem_calls_iff {s : State} {c : Call σ} :
    c ∈ s.calls mapper path data ↔
      ∃ a t, s.stopAt? mapper path data a = some t ∧ t.call = c := by
  rw [calls, List.mem_filterMap]
  constructor
  · rintro ⟨a, -, hc⟩
    obtain ⟨t, ht, rfl⟩ := Option.map_eq_some_iff.1 hc
    exact ⟨a, t, ht, rfl⟩
  · rintro ⟨a, t, ht, rfl⟩
    have hmem : a ∈ s.positions := mem_positions_iff.2 ⟨_, at?_of_stopAt? mapper path data ht⟩
    exact ⟨a, hmem, by rw [ht]; rfl⟩

theorem calls_eq_cons (s : State) :
    s.calls mapper path data =
      ⟨data, .of s, path⟩ :: callsIn mapper (pathBelow mapper path data s)
        (dataBelow mapper path data s) s.children := by
  rw [calls, filterMap_positions]
  rfl

theorem callsIn_cons (s : State) (ss : List State) :
    callsIn mapper path data (s :: ss) =
      s.calls mapper path data ++ callsIn mapper path (s.revise mapper path data).2 ss := by
  rw [callsIn, filterMap_positionsAll_cons]
  rfl

/-- **Keeping a record changes nothing**, and what is recorded are the calls, each position in its
turn. -/
theorem revise_logged (s : State) (log : List (Call σ)) :
    s.revise mapper.logged path (data, log) =
      ((s.revise mapper path data).1, (s.revise mapper path data).2,
        log ++ s.calls mapper path data) := by
  induction path, data, s using revise_induction mapper (fun path data ss ↦ ∀ log,
    reviseEach mapper.logged path (data, log) ss =
      ((reviseEach mapper path data ss).1, (reviseEach mapper path data ss).2,
        log ++ callsIn mapper path data ss)) generalizing log with
  | nil path data log => exact congrArg _ (congrArg _ (List.append_nil log).symm)
  | cons path data s ss hs hss log =>
    rw [reviseEach_cons, hs, hss, reviseEach_cons, callsIn_cons, List.append_assoc]
  | step path data s heach =>
    have hpath : pathBelow mapper.logged path (data, log) s = pathBelow mapper path data s := rfl
    have hdata : dataBelow mapper.logged path (data, log) s =
        (dataBelow mapper path data s, log ++ [⟨data, .of s, path⟩]) := rfl
    rw [revise_eq, hpath, hdata, heach, List.append_assoc, List.singleton_append, revise_eq,
      calls_eq_cons]
    rfl

/-- The data of the mapper goes from call to call. -/
theorem passes_calls (s : State) :
    mapper.Passes data (s.revise mapper path data).2 (s.calls mapper path data) := by
  induction path, data, s using revise_induction mapper (fun path data ss ↦
    mapper.Passes data (reviseEach mapper path data ss).2 (callsIn mapper path data ss)) with
  | nil path data => rfl
  | cons path data s ss hs hss =>
    rw [callsIn_cons, reviseEach_cons]
    exact hs.append hss
  | step path data s heach =>
    rw [calls_eq_cons, revise_eq]
    exact ⟨rfl, heach⟩

/-- Each state is handed to the mapper once, in the order of the walk. -/
theorem map_pending_calls (s : State) :
    (s.calls mapper path data).map (·.pending) = s.preorder.map .of := by
  rw [calls, ← filterMap_at?_positions, List.map_filterMap, List.map_filterMap]
  refine List.filterMap_congr fun a _ ↦ ?_
  rw [← map_state_stopAt? mapper path data s a, Option.map_map, Option.map_map]
  rfl

end State

end Statechart
