import Statechart.Proofs.Revision.Fusion

/-!
# What the ready-made mappers do

Each of them writes the transitions of a state and nothing else (`Mapper.WritesTransitions`). The
machine without its transitions then stays as it is (`Machine.withoutTransitions_revise`), and the
transitions of each state are those that the mapper answered in its calls, one after the other
(`Machine.transitionLists_revise`).

A test that decides which transitions to keep may carry data of its own, so it matters in which
order it is asked. `Mapper.ask` asks it of the items of a list from the first to the last, and
`Mapper.kept` are those to which it said yes. Filtering a machine is asking for all of its
transitions at once: `Machine.revise_standard`.
-/

namespace Statechart

variable {σ α : Type}

namespace Mapper

/-! ### Asking a test -/

/-- Ask a test of the items from the first to the last, each once. -/
def ask (keep : σ → α → Bool × σ) (xs : List α) : StateM σ (List Bool) :=
  xs.mapM fun x data ↦ keep data x

/-- The items whose answer is yes. -/
def kept (xs : List α) (answers : List Bool) : List α := ((xs.zip answers).filter (·.2)).map (·.1)

variable (keep : σ → α → Bool × σ) (data : σ)

theorem run_ask_cons (x : α) (xs : List α) :
    (ask keep (x :: xs)).run data =
      ((keep data x).1 :: ((ask keep xs).run (keep data x).2).1,
        ((ask keep xs).run (keep data x).2).2) := by
  rw [ask, List.mapM_cons]
  rfl

theorem run_ask_append (xs ys : List α) :
    (ask keep (xs ++ ys)).run data =
      (((ask keep xs).run data).1 ++ ((ask keep ys).run ((ask keep xs).run data).2).1,
        ((ask keep ys).run ((ask keep xs).run data).2).2) := by
  rw [ask, List.mapM_append]
  rfl

/-- There is one answer for each item. -/
theorem length_answers (xs : List α) : ((ask keep xs).run data).1.length = xs.length := by
  induction xs generalizing data with
  | nil => rfl
  | cons x xs ih => rw [run_ask_cons, List.length_cons, ih, List.length_cons]

theorem filterWith_eq (xs : List α) :
    filterWith keep data xs =
      (kept xs ((ask keep xs).run data).1, ((ask keep xs).run data).2) := by
  induction xs generalizing data with
  | nil => rfl
  | cons x xs ih =>
    rw [filterWith, run_ask_cons]
    simp only [ih]
    cases (keep data x).1 <;> simp [kept]

theorem kept_append {xs ys : List α} {answers others : List Bool}
    (h : answers.length = xs.length) :
    kept (xs ++ ys) (answers ++ others) = kept xs answers ++ kept ys others := by
  rw [kept, List.zip_append h.symm, List.filter_append, List.map_append]
  rfl

theorem kept_map {β : Type} (f : α → β) (xs : List α) (answers : List Bool) :
    kept (xs.map f) answers = (kept xs answers).map f := by
  simp only [kept, List.zip_map_left, List.filter_map, List.map_map]
  rfl

theorem kept_sublist (xs : List α) (answers : List Bool) : (kept xs answers).Sublist xs := by
  refine (List.filter_sublist.map _).trans ?_
  induction xs generalizing answers with
  | nil => exact List.Sublist.slnil
  | cons x xs ih =>
    cases answers with
    | nil => exact List.nil_sublist _
    | cons b answers => exact (ih answers).cons_cons x

theorem kept_eq_self {xs : List α} {answers : List Bool} (h : answers.length = xs.length)
    (hall : ∀ b ∈ answers, b = true) : kept xs answers = xs := by
  have hfilter : (xs.zip answers).filter (·.2) = xs.zip answers :=
    List.filter_eq_self.2 fun e he ↦ hall e.2 (List.of_mem_zip he).2
  rw [kept, hfilter, List.map_fst_zip (Nat.le_of_eq h.symm)]

theorem eq_true_of_mem_answers (hkeep : ∀ data x, (keep data x).1 = true) (xs : List α) {b : Bool}
    (hb : b ∈ ((ask keep xs).run data).1) : b = true := by
  induction xs generalizing data with
  | nil => exact absurd hb List.not_mem_nil
  | cons x xs ih =>
    rw [run_ask_cons] at hb
    rcases List.mem_cons.1 hb with rfl | hb
    · exact hkeep data x
    · exact ih _ hb

theorem zipWith_kept_eq_self {xss : List (List α)} {answers : List (List Bool)}
    (h : answers.map List.length = xss.map List.length)
    (hall : ∀ bs ∈ answers, ∀ b ∈ bs, b = true) : List.zipWith kept xss answers = xss := by
  induction xss generalizing answers with
  | nil => rfl
  | cons xs xss ih =>
    cases answers with
    | nil => cases h
    | cons bs answers =>
      obtain ⟨hfirst, hrest⟩ := List.cons.inj h
      obtain ⟨hbs, hall⟩ := List.forall_mem_cons.1 hall
      rw [List.zipWith_cons_cons, kept_eq_self hfirst hbs, ih hrest hall]

theorem kept_flatten {xss : List (List α)} {answers : List (List Bool)}
    (h : answers.map List.length = xss.map List.length) :
    kept xss.flatten answers.flatten = (List.zipWith kept xss answers).flatten := by
  induction xss generalizing answers with
  | nil =>
    obtain rfl := List.map_eq_nil_iff.1 h
    rfl
  | cons xs xss ih =>
    cases answers with
    | nil => cases h
    | cons bs answers =>
      obtain ⟨hfirst, hrest⟩ := List.cons.inj h
      rw [List.flatten_cons, List.flatten_cons, kept_append hfirst, ih hrest,
        List.zipWith_cons_cons, List.flatten_cons]

end Mapper

/-! ### Mappers that write transitions -/

namespace PendingState

/-- A state of which only the transitions are edited is pending in nothing else. -/
theorem exists_of_edits_transitions {s : State} {edits : List Edit}
    (h : ∀ e ∈ edits, e.facet? = some .transitions) :
    ∃ ts, (of s).edit edits = { of s with transitions := ts } := by
  refine edit_induction (motive := fun q ↦ ∃ ts, q = { of s with transitions := ts })
    ⟨none, rfl⟩ fun q e he hq ↦ ?_
  obtain ⟨ts, rfl⟩ := hq
  cases e with
  | clearTransitions | appendTransition | transformTransitions | setTransitions => exact ⟨_, rfl⟩
  | _ => cases h _ he

theorem currentTransitions_edit_append (p : PendingState) (ts : List TransitionConfig) :
    (p.edit (ts.map .appendTransition)).currentTransitions = p.currentTransitions ++ ts := by
  induction ts generalizing p with
  | nil => exact (List.append_nil _).symm
  | cons t ts ih =>
    show (((Edit.appendTransition t).apply p).edit (ts.map .appendTransition)).currentTransitions =
      p.currentTransitions ++ t :: ts
    rw [ih, List.append_cons]
    rfl

end PendingState

namespace Mapper

/-- The mapper writes the transitions of a state and nothing else. -/
def WritesTransitions (mapper : Mapper σ) : Prop :=
  mapper.Edits fun e ↦ e.facet? = some .transitions

/-- The transitions of the state that a call is for, as it was. -/
def before (c : Call σ) : List Transition := c.pending.base.transitions

/-- The transitions that the state has after the call. -/
def after (mapper : Mapper σ) (c : Call σ) : List Transition := (c.settled mapper).transitions

variable {mapper : Mapper σ}

theorem WritesTransitions.exists_answer (h : mapper.WritesTransitions) (data : σ) (s : State)
    (path : List State) :
    ∃ ts, (mapper data (.of s) path).1 = { PendingState.of s with transitions := ts } := by
  obtain ⟨edits, hedits, heq⟩ := h data s path
  rw [heq]
  exact PendingState.exists_of_edits_transitions hedits

theorem WritesTransitions.exists_settle (h : mapper.WritesTransitions) (data : σ) (s : State)
    (path : List State) :
    ∃ ts, (mapper data (.of s) path).1.settle.state =
      ⟨{ s.toFacets with transitions := ts }, s.kind.bare⟩ := by
  obtain ⟨ts, heq⟩ := h.exists_answer data s path
  rw [heq]
  obtain ⟨f, k⟩ := s
  cases k <;> exact ⟨_, rfl⟩

theorem WritesTransitions.declared_eq_none (h : mapper.WritesTransitions) (data : σ) (s : State)
    (path : List State) : (mapper data (.of s) path).1.declared = none := by
  obtain ⟨ts, heq⟩ := h.exists_answer data s path
  rw [heq]
  rfl

end Mapper

namespace State

variable {mapper : Mapper σ} (hmapper : mapper.WritesTransitions) (path : List State) (data : σ)

include hmapper

/-- Without transitions a tree is what it was. -/
theorem withoutTransitions_revise (s : State) :
    (s.revise mapper path data).1.withoutTransitions = s.withoutTransitions := by
  induction path, data, s using revise_induction mapper (fun path data ss ↦
    (reviseEach mapper path data ss).1.map withoutTransitions = ss.map withoutTransitions) with
  | nil path data => rfl
  | cons path data s ss hs hss => rw [reviseEach_cons, List.map_cons, hs, hss, List.map_cons]
  | step path data s heach =>
    have hnone := hmapper.declared_eq_none data s path
    have hbare := bare_revise_of_declared_eq_none path data hnone hmapper
    obtain ⟨ts, hsettle⟩ := hmapper.exists_settle data s path
    obtain ⟨hfacets, hkind⟩ := State.mk.inj (hbare.trans hsettle)
    apply eq_of_bare_eq
    · rw [bare_withoutTransitions, bare_withoutTransitions, hfacets, hkind]
      rfl
    · rw [children_withoutTransitions, children_withoutTransitions,
        children_revise_of_declared_eq_none path data hnone hmapper, heach]

/-- The transitions of the revised states are those that the mapper answered in its calls. -/
theorem map_transitions_preorder_revise (s : State) :
    (s.revise mapper path data).1.preorder.map (·.transitions) =
      (s.calls mapper path data).map mapper.after := by
  induction path, data, s using revise_induction mapper (fun path data ss ↦
    ((reviseEach mapper path data ss).1.flatMap preorder).map (·.transitions) =
      (callsIn mapper path data ss).map mapper.after) with
  | nil path data => rfl
  | cons path data s ss hs hss =>
    rw [reviseEach_cons, List.flatMap_cons, List.map_append, hs, hss, callsIn_cons, List.map_append]
  | step path data s heach =>
    have hself : (s.revise mapper path data).1.transitions =
        mapper.after ⟨data, .of s, path⟩ := by
      rw [revise_eq]
      exact congrArg Facets.transitions (toFacets_rejoin _ _ _)
    rw [preorder_eq_cons, List.map_cons, hself,
      children_revise_of_declared_eq_none path data (hmapper.declared_eq_none data s path) hmapper,
      heach, calls_eq_cons, List.map_cons]

end State

/-! ### One call -/

/-- The call is for a state whose transitions all start at it. -/
def Call.Owned (c : Call σ) : Prop :=
  ∃ s : State, c.pending = .of s ∧ ∀ t ∈ s.transitions, t.source = s.id

namespace Mapper

variable {mapper : Mapper σ} {c : Call σ}

/-- The transitions after a call are those that stand in structured form. -/
theorem after_eq (h : mapper.WritesTransitions) (hc : c.Owned) :
    mapper.after c =
      (c.answer mapper).currentTransitions.map (Transition.ofConfig c.pending.base.id) := by
  obtain ⟨data, pending, path⟩ := c
  obtain ⟨s, rfl, hsource⟩ := hc
  obtain ⟨ts, hanswer⟩ := h.exists_answer data s path
  have hself : ((⟨data, .of s, path⟩ : Call σ).answer mapper) =
      { PendingState.of s with transitions := ts } := hanswer
  rw [after, Call.settled, hself]
  have hnone : { PendingState.of s with transitions := ts }.invocations = none := rfl
  exact PendingState.settledTransitions_of_invocations_eq_none hnone hsource

/-- Transitions that were turned into their structured form are turned back. -/
theorem map_ofConfig_toConfig (hc : c.Owned) {ts : List Transition} (h : ts.Sublist (before c)) :
    (ts.map Transition.toConfig).map (Transition.ofConfig c.pending.base.id) = ts := by
  obtain ⟨data, pending, path⟩ := c
  obtain ⟨s, rfl, hsource⟩ := hc
  rw [List.map_map]
  refine (List.map_congr_left fun t ht ↦ ?_).trans (List.map_id' _)
  have hid : (PendingState.of s).base.id = t.source := (hsource t (h.subset ht)).symm
  rw [Function.comp_apply, hid, Transition.ofConfig_source_toConfig]

theorem currentTransitions_eq (hc : c.Owned) :
    c.pending.currentTransitions = (before c).map Transition.toConfig := by
  obtain ⟨data, pending, path⟩ := c
  obtain ⟨s, rfl, -⟩ := hc
  rfl

theorem writesTransitions_appendActions (actions : List Action) :
    (appendActions actions : Mapper σ).WritesTransitions :=
  fun _ _ _ ↦ ⟨[.transformTransitions _], List.forall_mem_singleton.2 rfl, rfl⟩

theorem after_appendActions (actions : List Action) (hc : c.Owned) :
    (appendActions actions).after c =
      (before c).map fun t ↦ { t with actions := t.actions ++ actions } := by
  have hback := map_ofConfig_toConfig hc (.refl (before c))
  have hanswer : (c.answer (appendActions actions)).currentTransitions =
      c.pending.currentTransitions.map fun t ↦ { t with actions := t.actions ++ actions } := rfl
  rw [after_eq (writesTransitions_appendActions actions) hc, hanswer, currentTransitions_eq hc]
  conv_rhs => rw [← hback]
  simp only [List.map_map]
  rfl

theorem writesTransitions_filterTransitions (keep : σ → TransitionConfig → Bool × σ) :
    (filterTransitions keep).WritesTransitions :=
  fun _ _ _ ↦ ⟨[.setTransitions _], List.forall_mem_singleton.2 rfl, rfl⟩

theorem after_filterTransitions (keep : σ → TransitionConfig → Bool × σ) (hc : c.Owned) :
    (filterTransitions keep).after c =
        kept (before c) ((ask keep ((before c).map Transition.toConfig)).run c.data).1 ∧
      c.dataAfter (filterTransitions keep) =
        ((ask keep ((before c).map Transition.toConfig)).run c.data).2 := by
  have hfilter := filterWith_eq keep c.data c.pending.currentTransitions
  have hanswer : (c.answer (filterTransitions keep)).currentTransitions =
      (filterWith keep c.data c.pending.currentTransitions).1 := rfl
  have hdata : c.dataAfter (filterTransitions keep) =
      (filterWith keep c.data c.pending.currentTransitions).2 := rfl
  rw [after_eq (writesTransitions_filterTransitions keep) hc, hanswer, hdata, hfilter,
    currentTransitions_eq hc, kept_map]
  exact ⟨map_ofConfig_toConfig hc (kept_sublist _ _), rfl⟩

theorem writesTransitions_appendTransitions
    (make : σ → PendingState → List State → List TransitionConfig × σ) :
    (appendTransitions make).WritesTransitions :=
  fun data s path ↦ ⟨(make data (.of s) path).1.map .appendTransition,
    List.forall_mem_map.2 fun _ _ ↦ rfl, rfl⟩

theorem after_appendTransitions
    (make : σ → PendingState → List State → List TransitionConfig × σ) (hc : c.Owned) :
    (appendTransitions make).after c =
      before c ++ (make c.data c.pending c.path).1.map (Transition.ofConfig c.pending.base.id) := by
  have hanswer : c.answer (appendTransitions make) =
      c.pending.edit ((make c.data c.pending c.path).1.map .appendTransition) := rfl
  rw [after_eq (writesTransitions_appendTransitions make) hc, hanswer,
    PendingState.currentTransitions_edit_append, List.map_append, currentTransitions_eq hc,
    map_ofConfig_toConfig hc (.refl _)]

end Mapper

/-! ### All calls -/

namespace Mapper

variable {mapper : Mapper σ} {cs : List (Call σ)} {data last : σ}

theorem Passes.eq_of_dataAfter_eq (hcs : mapper.Passes data last cs)
    (h : ∀ c : Call σ, c.dataAfter mapper = c.data) : last = data := by
  induction cs generalizing data with
  | nil => exact Eq.symm hcs
  | cons c cs ih =>
    obtain ⟨rfl, hcs⟩ := hcs
    exact (ih hcs).trans (h c)

/-- **The test goes through all transitions.** Filtering state by state, with the data that the
states before have left, is asking for all transitions at once. -/
theorem Passes.exists_answers {keep : σ → TransitionConfig → Bool × σ}
    (hcs : (filterTransitions keep).Passes data last cs) (howned : ∀ c ∈ cs, c.Owned) :
    ∃ answers : List (List Bool),
      answers.map List.length = (cs.map before).map List.length ∧
        (ask keep ((cs.map before).flatten.map Transition.toConfig)).run data =
            (answers.flatten, last) ∧
          cs.map (filterTransitions keep).after = List.zipWith kept (cs.map before) answers := by
  induction cs generalizing data with
  | nil =>
    obtain rfl : data = last := hcs
    exact ⟨[], rfl, rfl, rfl⟩
  | cons c cs ih =>
    obtain ⟨rfl, hcs⟩ := hcs
    obtain ⟨hc, howned⟩ := List.forall_mem_cons.1 howned
    obtain ⟨hafter, hdata⟩ := after_filterTransitions keep hc
    rw [hdata] at hcs
    obtain ⟨answers, hlength, hask, hkept⟩ := ih hcs howned
    refine ⟨((ask keep ((before c).map Transition.toConfig)).run c.data).1 :: answers, ?_, ?_, ?_⟩
    · rw [List.map_cons, length_answers, List.length_map, hlength, List.map_cons, List.map_cons]
    · rw [List.map_cons, List.flatten_cons, List.map_append, run_ask_append, hask,
        List.flatten_cons]
    · rw [List.map_cons, hafter, hkept, List.map_cons, List.zipWith_cons_cons]

/-- Make transitions for states, each given with the states above it, from the first to the last. -/
def makeAll (make : σ → PendingState → List State → List TransitionConfig × σ)
    (asked : List (PendingState × List State)) : StateM σ (List (List TransitionConfig)) :=
  asked.mapM fun a data ↦ make data a.1 a.2

theorem Passes.run_makeAll {make : σ → PendingState → List State → List TransitionConfig × σ}
    (hcs : (appendTransitions make).Passes data last cs) :
    (makeAll make (cs.map fun c ↦ (c.pending, c.path))).run data =
      (cs.map fun c ↦ (make c.data c.pending c.path).1, last) := by
  induction cs generalizing data with
  | nil =>
    obtain rfl : data = last := hcs
    rfl
  | cons c cs ih =>
    obtain ⟨rfl, hcs⟩ := hcs
    have hstep : (makeAll make ((c :: cs).map fun c ↦ (c.pending, c.path))).run c.data =
        let (next, last) := (makeAll make (cs.map fun c ↦ (c.pending, c.path))).run
          (c.dataAfter (appendTransitions make))
        ((make c.data c.pending c.path).1 :: next, last) := by
      rw [makeAll, List.map_cons, List.mapM_cons]
      rfl
    rw [hstep, ih hcs, List.map_cons]

/-- Each state gets what was made for it, after what it has. -/
theorem map_after_appendTransitions
    (make : σ → PendingState → List State → List TransitionConfig × σ)
    (howned : ∀ c ∈ cs, c.Owned) {ss : List State}
    (hpending : cs.map (·.pending) = ss.map PendingState.of) :
    cs.map (appendTransitions make).after =
      List.zipWith (fun s ts ↦ s.transitions ++ ts.map (Transition.ofConfig s.id)) ss
        (cs.map fun c ↦ (make c.data c.pending c.path).1) := by
  induction cs generalizing ss with
  | nil =>
    obtain rfl := List.map_eq_nil_iff.1 hpending.symm
    rfl
  | cons c cs ih =>
    cases ss with
    | nil => cases hpending
    | cons s ss =>
      obtain ⟨hself, hrest⟩ := List.cons.inj hpending
      obtain ⟨hc, howned⟩ := List.forall_mem_cons.1 howned
      have hbase : c.pending.base = s.bare := congrArg PendingState.base hself
      rw [List.map_cons, List.map_cons, List.zipWith_cons_cons, ih howned hrest,
        after_appendTransitions make hc, before, hbase]
      rfl

end Mapper

/-! ### A whole machine -/

namespace Machine

variable (m : Machine) {mapper : Mapper σ} (data : σ)

theorem withoutTransitions_revise (hmapper : mapper.WritesTransitions) :
    (m.revise mapper data).1.withoutTransitions = m.withoutTransitions :=
  congrArg (Machine.mk · m.context) (State.withoutTransitions_revise hmapper [] data m.root)

theorem transitionLists_revise (hmapper : mapper.WritesTransitions) :
    (m.revise mapper data).1.transitionLists = (m.calls mapper data).map mapper.after := by
  rw [calls_eq]
  exact State.map_transitions_preorder_revise hmapper [] data m.root

theorem map_pending_calls : (m.calls mapper data).map (·.pending) = m.root.preorder.map .of := by
  rw [calls_eq, State.map_pending_calls]

theorem map_before_calls : (m.calls mapper data).map Mapper.before = m.transitionLists := by
  have hbefore : (Mapper.before : Call σ → List Transition) =
      (fun p : PendingState ↦ p.base.transitions) ∘ Call.pending := rfl
  rw [hbefore, ← List.map_map, map_pending_calls, List.map_map]
  rfl

theorem passes_calls : mapper.Passes data (m.revise mapper data).2 (m.calls mapper data) := by
  rw [calls_eq]
  exact State.passes_calls mapper [] data m.root

variable {m}

theorem owned_of_mem_calls
    (hsource : ∀ s ∈ m.root.preorder, ∀ t ∈ s.transitions, t.source = s.id) {c : Call σ}
    (hc : c ∈ m.calls mapper data) : c.Owned := by
  have hpending : c.pending ∈ m.root.preorder.map PendingState.of := by
    rw [← map_pending_calls m data]
    exact List.mem_map_of_mem hc
  obtain ⟨s, hs, heq⟩ := List.mem_map.1 hpending
  exact ⟨s, heq.symm, hsource s hs⟩

section

variable (hsource : ∀ s ∈ m.root.preorder, ∀ t ∈ s.transitions, t.source = s.id)

include hsource

theorem revise_appendActions (actions : List Action) :
    m.revise (.appendActions actions) data =
      (m.mapTransitions fun _ ts ↦ ts.map fun t ↦ { t with actions := t.actions ++ actions },
        data) := by
  have hwrites := Mapper.writesTransitions_appendActions (σ := σ) actions
  refine Prod.ext (eq_of_transitionLists_eq ?_ ?_) ?_
  · rw [withoutTransitions_revise m data hwrites, withoutTransitions_mapTransitions]
  · rw [transitionLists_revise m data hwrites, transitionLists_mapTransitions,
      ← map_before_calls m data, List.map_map]
    exact List.map_congr_left fun c hc ↦
      Mapper.after_appendActions actions (owned_of_mem_calls data hsource hc)
  · exact (passes_calls m data).eq_of_dataAfter_eq fun _ ↦ rfl

theorem revise_filterTransitions (keep : σ → TransitionConfig → Bool × σ) :
    ∃ answers : List (List Bool), answers.map List.length = m.transitionLists.map List.length ∧
      (Mapper.ask keep (m.root.allTransitions.map Transition.toConfig)).run data =
          (answers.flatten, (m.revise (.filterTransitions keep) data).2) ∧
        (m.revise (.filterTransitions keep) data).1.transitionLists =
          List.zipWith Mapper.kept m.transitionLists answers := by
  obtain ⟨answers, hlength, hask, hkept⟩ := (passes_calls m data).exists_answers
    fun c hc ↦ owned_of_mem_calls data hsource hc
  rw [map_before_calls] at hlength hask hkept
  rw [transitionLists_revise m data (Mapper.writesTransitions_filterTransitions keep),
    allTransitions_root]
  exact ⟨answers, hlength, hask, hkept⟩

theorem revise_filterTransitions_of_forall {keep : σ → TransitionConfig → Bool × σ}
    (hkeep : ∀ data t, (keep data t).1 = true) :
    (m.revise (.filterTransitions keep) data).1 = m := by
  obtain ⟨answers, hlength, hask, hlists⟩ := revise_filterTransitions data hsource keep
  refine eq_of_transitionLists_eq
    (withoutTransitions_revise m data (Mapper.writesTransitions_filterTransitions keep)) ?_
  have hall : ∀ bs ∈ answers, ∀ b ∈ bs, b = true := fun bs hbs b hb ↦ by
    refine Mapper.eq_true_of_mem_answers keep data hkeep
      (m.root.allTransitions.map Transition.toConfig) ?_
    rw [hask]
    exact List.mem_flatten.2 ⟨bs, hbs, hb⟩
  rw [hlists, Mapper.zipWith_kept_eq_self hlength hall]

theorem revise_appendTransitions
    (make : σ → PendingState → List State → List TransitionConfig × σ) :
    ∃ added : List (List TransitionConfig),
      (Mapper.makeAll make ((m.calls (.appendTransitions make) data).map
          fun c ↦ (c.pending, c.path))).run data =
        (added, (m.revise (.appendTransitions make) data).2) ∧
      (m.revise (.appendTransitions make) data).1.transitionLists =
        List.zipWith (fun s ts ↦ s.transitions ++ ts.map (Transition.ofConfig s.id))
          m.root.preorder added := by
  refine ⟨_, (passes_calls m data).run_makeAll, ?_⟩
  rw [transitionLists_revise m data (Mapper.writesTransitions_appendTransitions make)]
  exact Mapper.map_after_appendTransitions make (fun c hc ↦ owned_of_mem_calls data hsource hc)
    (map_pending_calls m data)

end

/-- **The ready-made mappers act on the transitions of a machine, in their order, and on nothing
else.** Let all transitions of a machine start at the state that declares them.

Appending actions turns the actions of each transition into those that it had and the appended ones,
and changes nothing else.

Filtering asks the test, which may carry data of its own, once for every transition in its
structured form, in the order of `allTransitions`. The transitions of each state are those of the
old ones to which the answer was yes, and so are all transitions of the machine; nothing else
changes. If the answer is always yes, nothing changes at all.

Appending transitions asks for new ones once for every state, in the order of the walk. Each state
gets those that were made for it, with itself as their source, after those that it has, and nothing
else changes. -/
theorem revise_standard (m : Machine)
    (hsource : ∀ s ∈ m.root.preorder, ∀ t ∈ s.transitions, t.source = s.id) (data : σ)
    (actions : List Action) (keep : σ → TransitionConfig → Bool × σ)
    (make : σ → PendingState → List State → List TransitionConfig × σ) :
    m.revise (.appendActions actions) data =
        (m.mapTransitions fun _ ts ↦ ts.map fun t ↦ { t with actions := t.actions ++ actions },
          data) ∧
      ((m.revise (.filterTransitions keep) data).1.withoutTransitions = m.withoutTransitions ∧
        ∃ answers : List (List Bool), answers.map List.length = m.transitionLists.map List.length ∧
          (Mapper.ask keep (m.root.allTransitions.map Transition.toConfig)).run data =
              (answers.flatten, (m.revise (.filterTransitions keep) data).2) ∧
            (m.revise (.filterTransitions keep) data).1.transitionLists =
                List.zipWith Mapper.kept m.transitionLists answers ∧
              (m.revise (.filterTransitions keep) data).1.root.allTransitions =
                Mapper.kept m.root.allTransitions answers.flatten) ∧
      ((∀ data t, (keep data t).1 = true) → (m.revise (.filterTransitions keep) data).1 = m) ∧
      (m.revise (.appendTransitions make) data).1.withoutTransitions = m.withoutTransitions ∧
        (m.calls (.appendTransitions make) data).map (·.pending) = m.root.preorder.map .of ∧
          ∃ added : List (List TransitionConfig),
            (Mapper.makeAll make ((m.calls (.appendTransitions make) data).map
                fun c ↦ (c.pending, c.path))).run data =
              (added, (m.revise (.appendTransitions make) data).2) ∧
            (m.revise (.appendTransitions make) data).1.transitionLists =
              List.zipWith (fun s ts ↦ s.transitions ++ ts.map (Transition.ofConfig s.id))
                m.root.preorder added := by
  refine ⟨revise_appendActions data hsource actions, ⟨?_, ?_⟩,
    revise_filterTransitions_of_forall data hsource, ?_, map_pending_calls m data,
    revise_appendTransitions data hsource make⟩
  · exact withoutTransitions_revise m data (Mapper.writesTransitions_filterTransitions keep)
  · obtain ⟨answers, hlength, hask, hlists⟩ := revise_filterTransitions data hsource keep
    refine ⟨answers, hlength, hask, hlists, ?_⟩
    rw [allTransitions_root, hlists, allTransitions_root, Mapper.kept_flatten hlength]
  · exact withoutTransitions_revise m data (Mapper.writesTransitions_appendTransitions make)

/-- A tram and where it stops. The id of one stop starts like an absolute reference. -/
def tram : Machine where
  root := {
    Facets.named "tram" "tram" with
    transitions := [
      { Transition.of "tram" "ring" with internal := true, actions := [.named "bell"] }]
    kind := .compound "yard" [
      ⟨{ Facets.named "tram.yard" "yard" with
          transitions := [
            { Transition.of "tram.yard" "go" with
              targets := ["#park", "tram.yard"]
              guard := some (.named "free") },
            { Transition.of "tram.yard" "after(250)" with delay := some (.millis 250) }] },
        .atomic⟩,
      ⟨{ Facets.named "#park" "park" with
          transitions := [{ Transition.of "#park" "" with targets := ["tram"] }] }, .atomic⟩] }
  context := .null

theorem revise_standard_tram :
    (∀ s ∈ tram.root.preorder, ∀ t ∈ s.transitions, t.source = s.id) ∧
      tram.revise (.appendActions [.named "log"]) 0 =
        (tram.mapTransitions fun _ ts ↦ ts.map fun t ↦
          { t with actions := t.actions ++ [.named "log"] }, 0) ∧
      (∀ (data : Nat) (_ : TransitionConfig), ((true, data + 1) : Bool × Nat).1 = true) ∧
      (tram.revise (.filterTransitions fun data _ ↦ (true, data + 1)) 0).1 = tram ∧
      -- every other transition
      (let (n, data) := tram.revise (.filterTransitions fun data _ ↦ (data % 2 == 0, data + 1)) 0
      n.transitionLists.map (·.map (·.event)) = [["ring"], ["after(250)"], []] ∧ data = 4) ∧
      -- one more for each state than for the one before
      let (n, data) := tram.revise (.appendTransitions fun data _ _ ↦
        (List.replicate data (TransitionConfig.to ["##park"]), data + 1)) 0
      n.transitionLists.map (·.map (·.targets)) =
          [[[]], [["#park", "tram.yard"], [], ["#park"]], [["tram"], ["#park"], ["#park"]]] ∧
        data = 3 := by
  have hsource : ∀ s ∈ tram.root.preorder, ∀ t ∈ s.transitions, t.source = s.id := by decide
  have hall : ∀ (data : Nat) (_ : TransitionConfig), ((true, data + 1) : Bool × Nat).1 = true :=
    fun _ _ ↦ rfl
  have hstandard := revise_standard tram hsource 0 [.named "log"] (fun data _ ↦ (true, data + 1))
    fun _ _ _ ↦ ([], 0)
  exact ⟨hsource, hstandard.1, hall, hstandard.2.2.1 hall, by decide +kernel, by decide +kernel⟩

end Machine

end Statechart
