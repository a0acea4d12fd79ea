import Lci.GraphInv

/-! What every run of a completion graph guarantees, and where it breaks. On an acyclic graph with
an edge into every node, in every interleaving: a node is triggered only after every edge into it
fired, at most once per run; `test` reports done exactly when every edge into `GRAPH_END` fired;
the completion object is signaled at most once, after the last of them; a settled run has
completed every node and left every counter at zero, so a graph without completion object starts
its next run exactly as a fresh one.

With a completion object the graph deletes itself in the `mark_complete` that saw the last end
increment, while other threads may still be in theirs: after `fetch_add` on a counter, a thread
reads `signals_expected` from the graph, which a concurrent completion may just have freed
(`graph_completion_frees_graph_in_use`). -/

namespace Lci.Graph

open Backlog (errorcode_t)

theorem Activation.signaled_le_called (len : Nat) (a : Activation) :
    a.signaled len ≤ a.called len := by
  rcases a with _ | _ | _ | _ | ⟨_ | _ | _ | _, _, _⟩ | _ <;>
    simp [Activation.signaled, Activation.called]

theorem Activation.completing_of_signaled_pos {len : Nat} {a : Activation}
    (h : 0 < a.signaled len) : a.completing = true := by
  rcases a with _ | _ | _ | _ | ⟨_ | _ | _ | _, _, _⟩ | _ <;>
    simp_all [Activation.signaled, Activation.completing]

theorem WellFormed.of_handles {g : graph_t}
    (ht : ∀ u ∈ g.handles, ∀ e ∈ g.out_edges u,
      e.1 = .GRAPH_END ∨ (e.1 ∈ g.handles ∧ e.1 ≠ .GRAPH_START))
    (he : ∀ v ∈ g.handles, g.signals_expected v = g.indegree v)
    (hend : g.m_end_signals_expected = g.indegree .GRAPH_END) : WellFormed g := by
  refine ⟨fun u e hmem => ?_, he, hend⟩
  by_cases hu : u ∈ g.handles
  · exact ht u hu e hmem
  · simp [out_edges_of_not_mem hu] at hmem

theorem Acyclic.of_end_edges {g : graph_t}
    (h : ∀ i, ∀ e ∈ g.out_edges (.node i), e.1 = .GRAPH_END) : Acyclic g :=
  ⟨id, fun i k e he hk => by rw [h i e he] at hk; cases hk⟩

section Runs

variable {g : graph_t} {s : State} (hwf : WellFormed g) (hacyc : Acyclic g) (hfed : Fed g)
include hwf hacyc hfed

/-- **A node runs only after all its inputs.** Once a node has been triggered in the current run,
every edge into it has fired: the source's `mark_complete` has reset the source's counter, run the
edge's function and bumped the node's counter. -/
theorem triggered_after_inputs (hs : Reachable g s) {v : graph_node_t} (hv : s.act v ≠ .idle)
    {u : graph_node_t} {j : Nat} {e : graph_node_t × Bool} (he : (g.out_edges u)[j]? = some e)
    (hd : e.1 = v) :
    (s.act u).completing ∧ j < (s.act u).called (g.out_edges u).length ∧
      j < (s.act u).signaled (g.out_edges u).length := by
  have hi := reachable_inv hwf hacyc hfed hs
  have hfull := hi.triggered v hv
  rw [hwf.expected v (hi.active v hv), fired_eq_indegree_iff] at hfull
  have hj := hfull u j e he hd
  exact ⟨@Activation.completing_of_signaled_pos (g.out_edges u).length _ (by omega),
    lt_of_lt_of_le hj (Activation.signaled_le_called _ _), hj⟩

/-- No run starts a second activation of a node, nor bumps a counter past its expected count. -/
theorem never_retriggered (hs : Reachable g s) :
    s.fault ≠ some .retriggered ∧ s.fault ≠ some .too_many_signals :=
  (reachable_inv hwf hacyc hfed hs).fault

/-- **`graph_test`.** Once a run has started, `test` reports done exactly when every edge into
`GRAPH_END` has fired. -/
theorem test_done_iff (hs : Reachable g s) (hrun : s.act .GRAPH_START ≠ .idle) :
    test g s = .done ↔ ∀ u j e, (g.out_edges u)[j]? = some e → e.1 = .GRAPH_END →
      j < (s.act u).signaled (g.out_edges u).length := by
  have hi := reachable_inv hwf hacyc hfed hs
  rw [← fired_eq_indegree_iff, ← hwf.end_expected, ← hi.end_counter hrun, test]
  split_ifs with h
  · exact iff_of_true rfl h
  · exact iff_of_false (by decide) h

/-- **The completion object.** It is signaled at most once per run, only after every edge into
`GRAPH_END` fired, and the graph is deleted only then. -/
theorem comp_signaled_once (hs : Reachable g s) :
    s.comp_signals ≤ 1 ∧
      (s.comp_signals = 1 → ∀ u j e, (g.out_edges u)[j]? = some e → e.1 = .GRAPH_END →
        j < (s.act u).signaled (g.out_edges u).length) ∧
      (s.deleted → s.comp_signals = 1 ∧ g.m_comp) := by
  have hi := reachable_inv hwf hacyc hfed hs
  refine ⟨hi.comp_le, fun h => ?_, hi.deleted⟩
  rw [← fired_eq_indegree_iff, ← hwf.end_expected]
  exact hi.comp_full h

/-- **A settled run.** When the start node is done and no activation is left, every node has
completed, every counter is back at zero, `test` reports done, and a graph with a completion
object and an end edge has signaled it. -/
theorem settled_run_complete (hs : Reachable g s) (hset : Settled g s)
    (hstart : s.act .GRAPH_START = .done) :
    (∀ v ∈ g.handles, s.act v = .done) ∧ (∀ v, s.signals_received v = 0) ∧ test g s = .done ∧
      (g.m_comp → 0 < g.m_end_signals_expected → s.comp_signals = 1) := by
  have hi := reachable_inv hwf hacyc hfed hs
  have hdone := hi.all_done hwf hacyc hfed hset hstart
  have hzero := hi.settled_counters hwf hacyc hfed hset
  -- every edge into `GRAPH_END` fired, since every node's loop is over
  have hend : fired g s.act .GRAPH_END = g.m_end_signals_expected := by
    rw [hwf.end_expected, fired_eq_indegree_iff]
    intro u j e he _
    rw [hdone u (mem_handles_of_getElem? he)]
    exact (List.getElem?_eq_some_iff.mp he).1
  have hquiet : ∀ u, s.act u = .done ∨ s.act u = .idle := by
    intro u
    by_cases hmem : u ∈ g.handles
    · exact .inl (hdone u hmem)
    · exact .inr (by_contra fun h => hmem (hi.active u h))
  refine ⟨hdone, fun v => ?_, ?_, fun hm hpos => ?_⟩
  · by_cases hv : v ∈ g.handles
    · exact hzero v hv
    · exact hi.counter_outside v hv
  · rw [test, if_pos (by rw [hi.end_counter (by simp [hstart]), hend])]
  · rcases hi.end_pending hm hpos hend with h | ⟨u, hu⟩ | ⟨u, j, e, hu, -, -⟩
    · exact h
    · rcases hquiet u with h | h <;> simp [h, Activation.graph_completed] at hu
    · rcases hquiet u with h | h <;> simp [h, Activation.cmp?] at hu

/-- **A later `start` repeats the run.** On a graph without completion object, `start` from a
settled state gives exactly the state `start` gives on a freshly allocated graph. -/
theorem restart_repeats (hs : Reachable g s) (hset : Settled g s) (hcomp : g.m_comp = false)
    (hfault : s.fault = none) (e : Nat) : start g s = start g (initial e) := by
  have hi := reachable_inv hwf hacyc hfed hs
  have hzero := hi.settled_counters hwf hacyc hfed hset
  have hdel : s.deleted = false := by
    cases h : s.deleted
    · rfl
    · simpa [hcomp] using (hi.deleted h).2
  have hcnt : s.signals_received = fun _ => 0 := by
    funext v
    by_cases hv : v ∈ g.handles
    · exact hzero v hv
    · exact hi.counter_outside v hv
  have hall : (g.handles.all fun u => s.act u = .idle ∨ s.act u = .done) = true :=
    List.all_eq_true.mpr fun v hv => by simpa using hset v hv
  have hall' : (g.handles.all fun u => (initial e).act u = .idle ∨ (initial e).act u = .done) =
      true := List.all_eq_true.mpr fun v _ => by simp [initial]
  rw [start, start, if_pos hall, if_pos hall', if_neg (by simp [hdel]),
    if_neg (by simp [initial])]
  cases s
  simp_all [initial]

/-- **Every run of a graph.** On an acyclic graph with an edge into every node, in every
interleaving no node is triggered twice and no counter passes its expected count; once the run
has settled with its start node done, every node has completed, every counter is back at zero,
`test` reports done and a completion object fed by an end edge has been signaled; and on a graph
without completion object a later `start` repeats the run exactly. -/
theorem graph_run_settles (hs : Reachable g s) :
    (s.fault ≠ some .retriggered ∧ s.fault ≠ some .too_many_signals) ∧
    (Settled g s → s.act .GRAPH_START = .done →
      (∀ v ∈ g.handles, s.act v = .done) ∧ (∀ v, s.signals_received v = 0) ∧ test g s = .done ∧
        (g.m_comp → 0 < g.m_end_signals_expected → s.comp_signals = 1)) ∧
    (Settled g s → g.m_comp = false → s.fault = none → ∀ e, start g s = start g (initial e)) :=
  ⟨never_retriggered hwf hacyc hfed hs,
    fun hset hstart => settled_run_complete hwf hacyc hfed hs hset hstart,
    fun hset hcomp hfault => restart_repeats hwf hacyc hfed hs hset hcomp hfault⟩

end Runs

/-- The shape of `fan_in` without a completion object: two operations started together, both
feeding `GRAPH_END`. -/
def fan_in_plain : Option graph_t := do
  let (a, g) := add_node (alloc_graph false) true
  let (b, g) := add_node g true
  let g ← add_edge g .GRAPH_START a false
  let g ← add_edge g .GRAPH_START b false
  let g ← add_edge g a .GRAPH_END false
  add_edge g b .GRAPH_END false

def fan_in_plain_graph : graph_t :=
  ⟨false, ⟨0, false, [(.node 0, false), (.node 1, false)]⟩,
    [⟨1, true, [(.GRAPH_END, false)]⟩, ⟨1, true, [(.GRAPH_END, false)]⟩], 2⟩

/-- Both operations post and complete on two threads, and the first thread's `mark_complete`
finishes after the second's. -/
def fan_in_plain_trace : List Action :=
  [.start, .exec .GRAPH_START, .exec .GRAPH_START, .exec .GRAPH_START, .exec .GRAPH_START,
    .exec (.node 0), .returns (.node 0) .posted,
    .exec .GRAPH_START, .exec .GRAPH_START, .exec .GRAPH_START,
    .exec (.node 1), .returns (.node 1) .posted, .exec .GRAPH_START,
    .signal (.node 0), .signal (.node 1),
    .exec (.node 0), .exec (.node 0), .exec (.node 0),
    .exec (.node 1), .exec (.node 1), .exec (.node 1), .exec (.node 1), .exec (.node 1),
    .exec (.node 0), .exec (.node 0)]

/-- Where `fan_in_plain_trace` leaves a fresh graph. -/
def fan_in_plain_state : State :=
  (fan_in_plain_trace.foldlM (step fan_in_plain_graph) (initial 0)).getD (initial 0)

theorem graph_run_settles_fan_in :
    fan_in_plain = some fan_in_plain_graph ∧ WellFormed fan_in_plain_graph ∧
      Acyclic fan_in_plain_graph ∧ Fed fan_in_plain_graph ∧
      Reachable fan_in_plain_graph fan_in_plain_state ∧
      Settled fan_in_plain_graph fan_in_plain_state ∧
      fan_in_plain_state.act .GRAPH_START = .done ∧ fan_in_plain_state.fault = none ∧
      ((fan_in_plain_state.fault ≠ some .retriggered ∧
          fan_in_plain_state.fault ≠ some .too_many_signals) ∧
        (Settled fan_in_plain_graph fan_in_plain_state →
          fan_in_plain_state.act .GRAPH_START = .done →
          (∀ v ∈ fan_in_plain_graph.handles, fan_in_plain_state.act v = .done) ∧
            (∀ v, fan_in_plain_state.signals_received v = 0) ∧
            test fan_in_plain_graph fan_in_plain_state = .done ∧
            (fan_in_plain_graph.m_comp → 0 < fan_in_plain_graph.m_end_signals_expected →
              fan_in_plain_state.comp_signals = 1)) ∧
        (Settled fan_in_plain_graph fan_in_plain_state → fan_in_plain_graph.m_comp = false →
          fan_in_plain_state.fault = none →
          ∀ e, start fan_in_plain_graph fan_in_plain_state =
            start fan_in_plain_graph (initial e))) := by
  have hwf : WellFormed fan_in_plain_graph :=
    WellFormed.of_handles (by decide) (by decide) (by decide)
  have hacyc : Acyclic fan_in_plain_graph := by
    refine Acyclic.of_end_edges fun i e he => ?_
    rcases i with _ | _ | i <;>
      simp [fan_in_plain_graph, graph_t.out_edges, graph_t.node?] at he <;> simp [he]
  have hfed : Fed fan_in_plain_graph := by unfold Fed; decide
  have h0 : Reachable fan_in_plain_graph (initial 0) := .init ⟨0, rfl⟩
  have hs : Reachable fan_in_plain_graph fan_in_plain_state :=
    Machine.Reachable.of_foldlM_isSome h0 fan_in_plain_trace (by decide +kernel)
  have hset : Settled fan_in_plain_graph fan_in_plain_state := by unfold Settled; decide +kernel
  exact ⟨by decide, hwf, hacyc, hfed, hs, hset, by decide +kernel, by decide +kernel,
    graph_run_settles hwf hacyc hfed hs⟩

section Moves

/-- The node function has returned: the operation it posted is in flight or completed. -/
def Activation.returned : Activation → Bool
  | .posted | .mark _ _ _ | .done => true
  | _ => false

/-- The node's operation has completed and its `mark_complete` has begun. -/
def Activation.marked : Activation → Bool
  | .mark _ _ _ | .done => true
  | _ => false

/-- How a step `a` of the graph can move the activation of node `w`: a `mark_complete` triggers
it, its `trigger_node` calls its function (or completes it, without one), the function returns,
the operation completes, or its `mark_complete` advances. -/
inductive Moves (g : graph_t) (w : graph_node_t) : Action → Activation → Activation → Prop
  | trigger {u c} : Moves g w (.exec u) .idle (.trigger c)
  | run {c} : g.fn w = true → Moves g w (.exec w) (.trigger c) (.running c)
  | mark_now {c} : g.fn w = false → Moves g w (.exec w) (.trigger c) (.mark .reset false c)
  | returned_done {r c} : r.is_done = true →
      Moves g w (.returns w r) (.running c) (.mark .reset false c)
  | returned_posted {r c} : Moves g w (.returns w r) (.running c) .posted
  | signaled : Moves g w (.signal w) .posted (.mark .reset false none)
  | mark {pc gc c pc' gc'} : pc' ≠ .reset → Moves g w (.exec w) (.mark pc gc c) (.mark pc' gc' c)
  | finish {pc gc c} : Moves g w (.exec w) (.mark pc gc c) .done

variable {g : graph_t} {s s' : State} {a : Action}

theorem moves_setAct {u : graph_node_t} {x : Activation} (hx : Moves g u a (s.act u) x)
    (w : graph_node_t) :
    (s.setAct u x).act w = s.act w ∨ Moves g w a (s.act w) ((s.setAct u x).act w) := by
  by_cases hw : w = u
  · subst hw
    right
    simpa using hx
  · left
    simp [hw]

theorem mark_complete_moves {u : graph_node_t} {gc : Bool} {c : Option graph_node_t}
    {pc : MarkPc} (hu : s.act u = .mark pc gc c) (h : mark_complete g s u gc c pc = some s')
    (w : graph_node_t) : s'.act w = s.act w ∨ Moves g w (.exec u) (s.act w) (s'.act w) := by
  have hmark : ∀ pc' gc', pc' ≠ .reset → ∀ t : State, t.act = s.act →
      (t.setAct u (.mark pc' gc' c)).act w = s.act w ∨
        Moves g w (.exec u) (s.act w) ((t.setAct u (.mark pc' gc' c)).act w) := by
    intro pc' gc' hpc' t ht
    have hx : Moves g u (.exec u) (t.act u) (.mark pc' gc' c) := by
      rw [ht, hu]
      exact Moves.mark hpc'
    have := moves_setAct hx w
    rwa [ht] at this
  have hdone : ∀ t : State, t.act = s.act →
      (t.setAct u .done).act w = s.act w ∨
        Moves g w (.exec u) (s.act w) ((t.setAct u .done).act w) := by
    intro t ht
    have hx : Moves g u (.exec u) (t.act u) .done := by
      rw [ht, hu]
      exact Moves.finish
    have := moves_setAct hx w
    rwa [ht] at this
  cases pc with
  | reset =>
    cases h
    exact hmark _ _ (by simp) { s with signals_received := _ } rfl
  | edge j =>
    simp only [mark_complete] at h
    split_ifs at h <;> cases h
    · exact hmark _ _ (by simp) s rfl
    · exact hdone { s with deleted := true, comp_signals := _ } rfl
    · exact hdone s rfl
  | add j =>
    simp only [mark_complete] at h
    split at h <;> cases h
    · exact hmark _ _ (by simp) { s with signals_received := _ } rfl
    · exact hmark _ _ (by simp) { s with m_end_signals_received := _ } rfl
  | cmp j n =>
    simp only [mark_complete] at h
    split at h
    · split_ifs at h with h1 h2 h3 <;> cases h
      · -- the comparison saw the last increment and triggers the idle destination
        rename_i i _ _
        by_cases hw : w = .node i
        · subst hw
          right
          simp only [setAct_act, Function.update_self]
          exact h2 ▸ Moves.trigger
        · rcases hmark (.edge (j + 1)) gc (by simp) s rfl with h' | h'
          · left
            simpa [hw] using h'
          · right
            simpa [hw] using h'
      · exact .inl rfl
      · exact hmark _ _ (by simp) s rfl
      · exact .inl rfl
    · split_ifs at h <;> cases h
      · exact hmark _ _ (by simp) s rfl
      · exact hmark _ _ (by simp) s rfl
      · exact .inl rfl
    · cases h

/-- **One step moves activations only forward.** Each node keeps its activation or moves it as
`Moves` allows; no step but `start` resets one. -/
theorem step_moves (h : step g s a = some s') (ha : a ≠ .start) (w : graph_node_t) :
    s'.act w = s.act w ∨ Moves g w a (s.act w) (s'.act w) := by
  unfold step at h
  split at h
  · cases h
  cases a with
  | start => exact absurd rfl ha
  | exec u =>
    simp only [exec] at h
    split_ifs at h
    · cases h
      exact .inl rfl
    · split at h
      · rename_i c hu
        cases h
        unfold trigger_node
        cases hfn : g.fn u
        · exact moves_setAct (hu ▸ Moves.mark_now hfn) w
        · exact moves_setAct (hu ▸ Moves.run hfn) w
      · rename_i pc gc c hu
        exact mark_complete_moves hu h w
      · cases h
  | returns u r =>
    simp only [trigger_node_return] at h
    split at h
    · rename_i c hu
      split_ifs at h with h1 h2 <;> cases h
      · exact moves_setAct (hu ▸ Moves.returned_done h1) w
      · exact .inl rfl
      · exact moves_setAct (hu ▸ Moves.returned_posted) w
    · cases h
  | signal v =>
    simp only [signal] at h
    split at h
    · rename_i hv
      split_ifs at h <;> cases h
      · exact .inl rfl
      · exact moves_setAct (hv ▸ Moves.signaled) w
    · cases h

theorem Moves.active {w : graph_node_t} {x y : Activation} (h : Moves g w a x y) : y ≠ .idle := by
  cases h <;> simp

theorem Moves.returned_mono {w : graph_node_t} {x y : Activation} (h : Moves g w a x y)
    (hx : x.returned) : y.returned := by
  cases h <;> simp_all [Activation.returned]

/-- A node with a function completes only when its function returns `done` or its operation
signals the graph. -/
theorem Moves.done_of_marked {w : graph_node_t} {x y : Activation} (h : Moves g w a x y)
    (hfn : g.fn w = true) (hx : x.marked = false) (hy : y.marked) :
    (∃ r, a = .returns w r ∧ r.is_done = true) ∨ a = .signal w := by
  cases h <;> simp_all [Activation.marked]

theorem Activation.marked_of_completing {x : Activation} (h : x.completing) : x.marked := by
  rcases x with _ | _ | _ | _ | ⟨_ | _ | _ | _, _, _⟩ | _ <;>
    simp_all [Activation.completing, Activation.marked]

theorem Activation.ne_idle_of_returned {x : Activation} (h : x.returned) : x ≠ .idle := by
  rintro rfl
  simp [Activation.returned] at h

theorem Activation.returned_of_marked {x : Activation} (h : x.marked) : x.returned := by
  cases x <;> simp_all [Activation.marked, Activation.returned]

/-- A node's function that returns something other than a retry was running and leaves the
node completed (`done`) or waiting for its operation (`posted`). -/
theorem step_returns {u : graph_node_t} {r : errorcode_t} (h : step g s (.returns u r) = some s')
    (hr : r.is_retry = false) :
    ∃ c, s.act u = .running c ∧ s'.act u = if r.is_done then .mark .reset false c else .posted := by
  unfold step at h
  split at h
  · cases h
  simp only [trigger_node_return] at h
  split at h
  · rename_i c hu
    refine ⟨c, hu, ?_⟩
    split_ifs at h with h1 h2 <;> cases h <;> simp_all
  · cases h

theorem step_start_initial (g : graph_t) (e : Nat) :
    ∃ s', step g (initial e) .start = some s' ∧
      s'.act = fun u => if u = .GRAPH_START then .mark .reset false none else .idle := by
  have hall : (g.handles.all fun u => (initial e).act u = .idle ∨ (initial e).act u = .done) =
      true := List.all_eq_true.mpr fun v _ => by simp [initial]
  rw [step, if_neg (by simp [initial]), start, if_pos hall, if_neg (by simp [initial])]
  exact ⟨_, rfl, rfl⟩

end Moves

section Freed

theorem exists_reachable_of_trace {g : graph_t} {as : List Action} {e : Nat} {f : Fault}
    (h : (as.foldlM (step g) (initial e)).map State.fault = some (some f)) :
    ∃ s, Reachable g s ∧ s.fault = some f := by
  obtain ⟨s, hs, hf⟩ := Option.map_eq_some_iff.mp h
  exact ⟨s, Machine.Reachable.of_foldlM (.init ⟨e, rfl⟩) as hs, hf⟩

/-- Two operations started together and both feeding `GRAPH_END`, with a completion object: the
shape `barrier` builds for one rank, and the last round of the other collectives. -/
def fan_in : Option graph_t := do
  let (a, g) := add_node (alloc_graph true) true
  let (b, g) := add_node g true
  let g ← add_edge g .GRAPH_START a false
  let g ← add_edge g .GRAPH_START b false
  let g ← add_edge g a .GRAPH_END false
  add_edge g b .GRAPH_END false

def fan_in_graph : graph_t :=
  ⟨true, ⟨0, false, [(.node 0, false), (.node 1, false)]⟩,
    [⟨1, true, [(.GRAPH_END, false)]⟩, ⟨1, true, [(.GRAPH_END, false)]⟩], 2⟩

/-- Both operations post; they complete on two threads, and the second thread's increment of the
end counter is the last one: it deletes the graph while the first thread still has to compare its
own increment with `m_end_signals_expected`. -/
def fan_in_trace : List Action :=
  [.start, .exec .GRAPH_START, .exec .GRAPH_START, .exec .GRAPH_START, .exec .GRAPH_START,
    .exec (.node 0), .returns (.node 0) .posted,
    .exec .GRAPH_START, .exec .GRAPH_START, .exec .GRAPH_START,
    .exec (.node 1), .returns (.node 1) .posted, .exec .GRAPH_START,
    .signal (.node 0), .signal (.node 1),
    .exec (.node 0), .exec (.node 0), .exec (.node 0),
    .exec (.node 1), .exec (.node 1), .exec (.node 1), .exec (.node 1), .exec (.node 1),
    .exec (.node 0)]

/-- A start node whose first edge leads to a node with an end edge and whose second leads to a
node with no out-edge, all synchronous, with a completion object. -/
def fan_out_sink : Option graph_t := do
  let (a, g) := add_node (alloc_graph true) false
  let (b, g) := add_node g false
  let g ← add_edge g .GRAPH_START a false
  let g ← add_edge g .GRAPH_START b false
  add_edge g a .GRAPH_END false

def fan_out_sink_graph : graph_t :=
  ⟨true, ⟨0, false, [(.node 0, false), (.node 1, false)]⟩,
    [⟨1, false, [(.GRAPH_END, false)]⟩, ⟨1, false, []⟩], 1⟩

/-- `start` alone: the first node completes inside the start node's loop, fires the only end edge
and deletes the graph; the start node's loop then goes on to its second edge. -/
def fan_out_sink_trace : List Action :=
  [.start, .exec .GRAPH_START, .exec .GRAPH_START, .exec .GRAPH_START, .exec .GRAPH_START,
    .exec (.node 0), .exec (.node 0), .exec (.node 0), .exec (.node 0), .exec (.node 0),
    .exec (.node 0), .exec .GRAPH_START]

/-- **The graph is freed while in use.** On graphs with a completion object, built by `add_node`
and `add_edge`, acyclic and with an edge into every node, a run reaches a step that touches the
deleted graph: in `fan_in` a thread whose `fetch_add` on the end counter was not the last reads
`m_end_signals_expected` after a concurrent completion deleted the graph; in `fan_out_sink`,
single-threaded, the start node's `mark_complete` reads its next out-edge after a node it
triggered deleted the graph. -/
theorem graph_completion_frees_graph_in_use :
    (∃ g, fan_in = some g ∧ WellFormed g ∧ Acyclic g ∧ Fed g ∧
      ∃ s, Reachable g s ∧ s.fault = some .use_after_free) ∧
    (∃ g, fan_out_sink = some g ∧ WellFormed g ∧ Acyclic g ∧ Fed g ∧
      ∃ s, Reachable g s ∧ s.fault = some .use_after_free) := by
  refine ⟨⟨fan_in_graph, by decide, WellFormed.of_handles (by decide) (by decide) (by decide),
    Acyclic.of_end_edges fun i e he => ?_, by unfold Fed; decide,
    @exists_reachable_of_trace _ fan_in_trace 0 _ (by decide)⟩,
    ⟨fan_out_sink_graph, by decide, WellFormed.of_handles (by decide) (by decide) (by decide),
    Acyclic.of_end_edges fun i e he => ?_, by unfold Fed; decide,
    @exists_reachable_of_trace _ fan_out_sink_trace 0 _ (by decide)⟩⟩
  · rcases i with _ | _ | i <;>
      simp [fan_in_graph, graph_t.out_edges, graph_t.node?] at he <;> simp [he]
  · rcases i with _ | _ | i <;>
      simp [fan_out_sink_graph, graph_t.out_edges, graph_t.node?] at he
    simp [he]

end Freed

end Lci.Graph
