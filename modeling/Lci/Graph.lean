import Lci.Machine
import Lci.Backlog

/-! The completion graph `graph_t`. A graph is built with `add_node` and `add_edge`; `start`
completes the start node, and completing a node (`mark_complete`) runs each out-edge's function
and bumps the destination's counter, triggering the destination (`trigger_node`) when its counter
reaches `signals_expected`; a node whose function returns `posted` is completed later by `signal`.

Every `trigger_node` and `mark_complete` in progress is an activation of its node, with the
position of its loop and the node whose loop called it (`none` at the bottom of a thread). A loop
waits while the node it triggered is active, so the activations of one thread form its call stack,
and any interleaving of the counter increments of concurrent completions is a run of `step`. An
activation of a node that already has one is not representable here: the step that would start it
is the fault `retriggered`.

With a completion object the graph deletes itself once its last end edge fires; a step that then
touches the graph is the fault `use_after_free`. -/

namespace Lci.Graph

open Backlog (errorcode_t)

/-- `graph_node_t`: `GRAPH_START`, `GRAPH_END`, or the `i`-th node `add_node` returned. -/
inductive graph_node_t
  | GRAPH_START
  | GRAPH_END
  | node (i : Nat)
  deriving DecidableEq, Repr

/-- `graph_t::node_impl_t`; of the node and edge functions, whether they are set. -/
structure node_impl_t where
  signals_expected : Nat
  fn : Bool
  out_edges : List (graph_node_t × Bool)
  deriving DecidableEq, Repr

/-- The structure of a `graph_t`; `m_comp` is whether `alloc_graph` was given a completion
object. -/
structure graph_t where
  m_comp : Bool
  m_start_node : node_impl_t
  nodes : List node_impl_t
  m_end_signals_expected : Nat
  deriving DecidableEq, Repr

/-- `alloc_graph`: no nodes, and a start node without a function. -/
def alloc_graph (comp : Bool) : graph_t := ⟨comp, ⟨0, false, []⟩, [], 0⟩

/-- The record behind a handle; `GRAPH_END` has none. -/
def graph_t.node? (g : graph_t) : graph_node_t → Option node_impl_t
  | .GRAPH_START => some g.m_start_node
  | .GRAPH_END => none
  | .node i => g.nodes[i]?

def graph_t.out_edges (g : graph_t) (u : graph_node_t) : List (graph_node_t × Bool) :=
  ((g.node? u).map (·.out_edges)).getD []

def graph_t.signals_expected (g : graph_t) (u : graph_node_t) : Nat :=
  ((g.node? u).map (·.signals_expected)).getD 0

def graph_t.fn (g : graph_t) (u : graph_node_t) : Bool :=
  ((g.node? u).map (·.fn)).getD false

/-- The handles with a record: the start node and every node added. -/
def graph_t.handles (g : graph_t) : List graph_node_t :=
  .GRAPH_START :: (List.range g.nodes.length).map .node

/-- Apply `f` to the record behind a handle. -/
def graph_t.modify (g : graph_t) (u : graph_node_t) (f : node_impl_t → node_impl_t) : graph_t :=
  match u with
  | .GRAPH_START => { g with m_start_node := f g.m_start_node }
  | .GRAPH_END => g
  | .node i => { g with nodes := g.nodes.modify i f }

/-- `graph_t::add_node`. -/
def add_node (g : graph_t) (fn : Bool) : graph_node_t × graph_t :=
  (.node g.nodes.length, { g with nodes := g.nodes ++ [⟨0, fn, []⟩] })

/-- `graph_t::add_edge`; `none` where an assertion aborts. -/
def add_edge (g : graph_t) (src dst : graph_node_t) (fn : Bool) : Option graph_t :=
  if dst = .GRAPH_START ∨ src = .GRAPH_END then none
  else
    let g := g.modify src fun n => { n with out_edges := n.out_edges ++ [(dst, fn)] }
    if dst = .GRAPH_END then some { g with m_end_signals_expected := g.m_end_signals_expected + 1 }
    else some (g.modify dst fun n => { n with signals_expected := n.signals_expected + 1 })

/-- Where the loop of a `mark_complete` is: before resetting the counter, before the `j`-th
out-edge (or past the last one), before its counter increment, or before comparing the value
`signals` that the increment returned. -/
inductive MarkPc
  | reset
  | edge (j : Nat)
  | add (j : Nat)
  | cmp (j : Nat) (signals : Nat)
  deriving DecidableEq, Repr

/-- A node's activation in the current run. -/
inductive Activation
  | idle
  | trigger (caller : Option graph_node_t)
  | running (caller : Option graph_node_t)
  | posted
  | mark (pc : MarkPc) (graph_completed : Bool) (caller : Option graph_node_t)
  | done
  deriving DecidableEq, Repr

def Activation.caller : Activation → Option graph_node_t
  | .trigger c | .running c | .mark _ _ c => c
  | _ => none

inductive Fault
  | use_after_free
  | retry_returned
  | too_many_signals
  | retriggered
  deriving DecidableEq, Repr

/-- The counters of a graph, the activations of its nodes, whether it has been deleted, and how
often its completion object was signaled in this run. -/
structure State where
  signals_received : graph_node_t → Nat
  m_end_signals_received : Nat
  act : graph_node_t → Activation
  deleted : Bool
  comp_signals : Nat
  fault : Option Fault

def State.setAct (s : State) (u : graph_node_t) (a : Activation) : State :=
  { s with act := Function.update s.act u a }

def State.fail (s : State) (f : Fault) : State := { s with fault := some f }

section Fields

variable (s : State) (u : graph_node_t) (a : Activation) (f : Fault)

@[simp] theorem setAct_act : (s.setAct u a).act = Function.update s.act u a := rfl
@[simp] theorem setAct_signals_received : (s.setAct u a).signals_received = s.signals_received :=
  rfl
@[simp] theorem setAct_m_end_signals_received :
    (s.setAct u a).m_end_signals_received = s.m_end_signals_received := rfl
@[simp] theorem setAct_deleted : (s.setAct u a).deleted = s.deleted := rfl
@[simp] theorem setAct_comp_signals : (s.setAct u a).comp_signals = s.comp_signals := rfl
@[simp] theorem setAct_fault : (s.setAct u a).fault = s.fault := rfl

end Fields

/-- Some active node was triggered by `u`'s loop, which waits for it. -/
def State.blocked (g : graph_t) (s : State) (u : graph_node_t) : Bool :=
  g.handles.any fun v => (s.act v).caller = some u

/-- Whether an activation's next step touches the graph: all but leaving the loop of a
`mark_complete` that did not complete the graph. -/
def reads_graph (g : graph_t) (u : graph_node_t) : Activation → Bool
  | .mark (.edge j) gc _ => j < (g.out_edges u).length || gc
  | .trigger _ | .mark _ _ _ => true
  | _ => false

/-- `trigger_node` up to the call of the node function: without one the status is `done`. -/
def trigger_node (g : graph_t) (s : State) (u : graph_node_t) (c : Option graph_node_t) :
    State :=
  s.setAct u (if g.fn u then .running c else .mark .reset false c)

/-- The rest of `trigger_node` once the node function returned `r`. -/
def trigger_node_return (s : State) (u : graph_node_t) (r : errorcode_t) : Option State :=
  match s.act u with
  | .running c =>
    if r.is_done then some (s.setAct u (.mark .reset false c))
    else if r.is_retry then some (s.fail .retry_returned)
    else some (s.setAct u .posted)
  | _ => none

/-- One step of the `mark_complete` of `u`. -/
def mark_complete (g : graph_t) (s : State) (u : graph_node_t) (gc : Bool)
    (c : Option graph_node_t) : MarkPc → Option State
  | .reset =>
    some { s.setAct u (.mark (.edge 0) gc c) with
      signals_received := Function.update s.signals_received u 0 }
  | .edge j =>
    -- the edge function runs here, before the destination's counter is bumped
    if j < (g.out_edges u).length then some (s.setAct u (.mark (.add j) gc c))
    else if gc ∧ g.m_comp then
      some { s.setAct u .done with deleted := true, comp_signals := s.comp_signals + 1 }
    else some (s.setAct u .done)
  | .add j =>
    match (g.out_edges u)[j]? with
    | some (.node i, _) =>
      some { s.setAct u (.mark (.cmp j (s.signals_received (.node i) + 1)) gc c) with
        signals_received := Function.update s.signals_received (.node i)
          (s.signals_received (.node i) + 1) }
    | some (.GRAPH_END, _) =>
      some { s.setAct u (.mark (.cmp j (s.m_end_signals_received + 1)) gc c) with
        m_end_signals_received := s.m_end_signals_received + 1 }
    | _ => none
  | .cmp j n =>
    match (g.out_edges u)[j]? with
    | some (.node i, _) =>
      if n = g.signals_expected (.node i) then
        if s.act (.node i) = .idle then
          some ((s.setAct u (.mark (.edge (j + 1)) gc c)).setAct (.node i) (.trigger (some u)))
        else some (s.fail .retriggered)
      else if n < g.signals_expected (.node i) then some (s.setAct u (.mark (.edge (j + 1)) gc c))
      else some (s.fail .too_many_signals)
    | some (.GRAPH_END, _) =>
      if n = g.m_end_signals_expected then some (s.setAct u (.mark (.edge (j + 1)) true c))
      else if n < g.m_end_signals_expected then some (s.setAct u (.mark (.edge (j + 1)) gc c))
      else some (s.fail .too_many_signals)
    | _ => none

/-- The next step of `u`'s activation, unless it waits for a node it triggered. -/
def exec (g : graph_t) (s : State) (u : graph_node_t) : Option State :=
  if s.blocked g u then none
  else if s.deleted ∧ reads_graph g u (s.act u) then some (s.fail .use_after_free)
  else
    match s.act u with
    | .trigger c => some (trigger_node g s u c)
    | .mark pc gc c => mark_complete g s u gc c pc
    | _ => none

/-- `graph_t::signal` for a node whose operation completed. -/
def signal (s : State) (v : graph_node_t) : Option State :=
  match s.act v with
  | .posted =>
    if s.deleted then some (s.fail .use_after_free)
    else some (s.setAct v (.mark .reset false none))
  | _ => none

/-- `graph_t::start`, once the last run has settled; the activations of the new run start
afresh. -/
def start (g : graph_t) (s : State) : Option State :=
  if g.handles.all fun u => s.act u = .idle ∨ s.act u = .done then
    if s.deleted then some (s.fail .use_after_free)
    else
      some { s with
        m_end_signals_received := 0
        comp_signals := 0
        act := fun u => if u = .GRAPH_START then .mark .reset false none else .idle }
  else none

/-- `graph_t::test`. -/
def test (g : graph_t) (s : State) : errorcode_t :=
  if s.m_end_signals_received = g.m_end_signals_expected then .done else .retry

inductive Action
  | start
  | exec (u : graph_node_t)
  | returns (u : graph_node_t) (r : errorcode_t)
  | signal (v : graph_node_t)
  deriving DecidableEq, Repr

/-- A step of the program or of its environment; nothing moves after a fault. -/
def step (g : graph_t) (s : State) (a : Action) : Option State :=
  if s.fault.isSome then none
  else
    match a with
    | .start => start g s
    | .exec u => exec g s u
    | .returns u r => trigger_node_return s u r
    | .signal v => signal s v

/-- A freshly allocated graph: counters zero, no activation; `m_end_signals_received` holds
whatever it was constructed with until the first `start`. -/
def initial (e : Nat) : State :=
  ⟨fun _ => 0, e, fun _ => .idle, false, 0, none⟩

def Reachable (g : graph_t) : State → Prop :=
  Machine.Reachable (fun s => ∃ e, s = initial e) (fun s s' => ∃ a, step g s a = some s')

/-- The number of out-edges of the handles that lead to `v`. -/
def graph_t.indegree (g : graph_t) (v : graph_node_t) : Nat :=
  ∑ u ∈ g.handles.toFinset, (g.out_edges u).countP (·.1 = v)

/-- What building a graph keeps: edges lead to `GRAPH_END` or to a handle other than
`GRAPH_START`, and each counter expects one signal per edge into it. -/
structure WellFormed (g : graph_t) : Prop where
  targets : ∀ u, ∀ e ∈ g.out_edges u, e.1 = .GRAPH_END ∨ (e.1 ∈ g.handles ∧ e.1 ≠ .GRAPH_START)
  expected : ∀ v ∈ g.handles, g.signals_expected v = g.indegree v
  end_expected : g.m_end_signals_expected = g.indegree .GRAPH_END

@[simp] theorem mem_handles {g : graph_t} {u : graph_node_t} :
    u ∈ g.handles ↔ u = .GRAPH_START ∨ ∃ i < g.nodes.length, u = .node i := by
  cases u <;> simp [graph_t.handles, eq_comm]

theorem out_edges_of_not_mem {g : graph_t} {u : graph_node_t} (hu : u ∉ g.handles) :
    g.out_edges u = [] := by
  cases u with
  | GRAPH_START => simp at hu
  | GRAPH_END => rfl
  | node i =>
    have : g.nodes.length ≤ i := by simpa using hu
    simp [graph_t.out_edges, graph_t.node?, List.getElem?_eq_none this]

theorem node?_modify (g : graph_t) (u : graph_node_t) (f : node_impl_t → node_impl_t)
    (v : graph_node_t) :
    (g.modify u f).node? v = if u = v then (g.node? v).map f else g.node? v := by
  cases u <;> cases v <;> simp [graph_t.modify, graph_t.node?, List.getElem?_modify, eq_comm]
  split_ifs <;> simp

@[simp] theorem handles_modify (g : graph_t) (u : graph_node_t) (f : node_impl_t → node_impl_t) :
    (g.modify u f).handles = g.handles := by
  cases u <;> simp [graph_t.modify, graph_t.handles]

@[simp] theorem m_end_signals_expected_modify (g : graph_t) (u : graph_node_t)
    (f : node_impl_t → node_impl_t) :
    (g.modify u f).m_end_signals_expected = g.m_end_signals_expected := by
  cases u <;> rfl

section EndCounter

variable (g : graph_t) (k : Nat)

@[simp] theorem out_edges_set_end :
    ({ g with m_end_signals_expected := k } : graph_t).out_edges = g.out_edges := rfl
@[simp] theorem signals_expected_set_end :
    ({ g with m_end_signals_expected := k } : graph_t).signals_expected = g.signals_expected := rfl
@[simp] theorem handles_set_end :
    ({ g with m_end_signals_expected := k } : graph_t).handles = g.handles := rfl
@[simp] theorem indegree_set_end :
    ({ g with m_end_signals_expected := k } : graph_t).indegree = g.indegree := rfl

end EndCounter

theorem node?_of_mem_handles {g : graph_t} {u : graph_node_t} (hu : u ∈ g.handles) :
    ∃ n, g.node? u = some n := by
  rcases mem_handles.mp hu with rfl | ⟨i, hi, rfl⟩
  · exact ⟨_, rfl⟩
  · exact ⟨g.nodes[i], List.getElem?_eq_getElem hi⟩

/-- Appending an out-edge to a handle's record. -/
theorem out_edges_modify_append {g : graph_t} {u : graph_node_t} (hu : u ∈ g.handles)
    (x : graph_node_t × Bool) (v : graph_node_t) :
    (g.modify u fun n => { n with out_edges := n.out_edges ++ [x] }).out_edges v =
      g.out_edges v ++ if u = v then [x] else [] := by
  obtain ⟨n, hn⟩ := node?_of_mem_handles hu
  by_cases h : u = v
  · subst h
    simp [graph_t.out_edges, node?_modify, hn]
  · simp [graph_t.out_edges, node?_modify, h]

theorem out_edges_modify_expected (g : graph_t) (u : graph_node_t) :
    (g.modify u fun n => { n with signals_expected := n.signals_expected + 1 }).out_edges =
      g.out_edges := by
  funext v
  by_cases h : u = v
  · subst h
    cases hn : g.node? u <;> simp [graph_t.out_edges, node?_modify, hn]
  · simp [graph_t.out_edges, node?_modify, h]

theorem signals_expected_modify_expected {g : graph_t} {u : graph_node_t} (hu : u ∈ g.handles)
    (v : graph_node_t) :
    (g.modify u fun n => { n with signals_expected := n.signals_expected + 1 }).signals_expected v =
      g.signals_expected v + if u = v then 1 else 0 := by
  obtain ⟨n, hn⟩ := node?_of_mem_handles hu
  by_cases h : u = v
  · subst h
    simp [graph_t.signals_expected, node?_modify, hn]
  · simp [graph_t.signals_expected, node?_modify, h]

theorem signals_expected_modify_append (g : graph_t) (u : graph_node_t)
    (x : graph_node_t × Bool) :
    (g.modify u fun n => { n with out_edges := n.out_edges ++ [x] }).signals_expected =
      g.signals_expected := by
  funext v
  by_cases h : u = v
  · subst h
    cases hn : g.node? u <;> simp [graph_t.signals_expected, node?_modify, hn]
  · simp [graph_t.signals_expected, node?_modify, h]

theorem alloc_graph_wellFormed (comp : Bool) : WellFormed (alloc_graph comp) := by
  constructor
  · intro u e he
    cases u <;> simp [alloc_graph, graph_t.out_edges, graph_t.node?] at he
  · intro v hv
    simp [alloc_graph, graph_t.handles] at hv
    subst hv
    simp [alloc_graph, graph_t.signals_expected, graph_t.indegree, graph_t.handles,
      graph_t.out_edges, graph_t.node?]
  · simp [alloc_graph, graph_t.indegree, graph_t.handles, graph_t.out_edges, graph_t.node?]

theorem node?_add_node (g : graph_t) (fn : Bool) (u : graph_node_t) :
    (add_node g fn).2.node? u =
      if u = .node g.nodes.length then some ⟨0, fn, []⟩ else g.node? u := by
  cases u with
  | node i =>
    simp only [add_node, graph_t.node?, graph_node_t.node.injEq]
    rcases Nat.lt_trichotomy i g.nodes.length with h | rfl | h
    · rw [if_neg (by omega), List.getElem?_append_left h]
    · simp
    · rw [if_neg (by omega), List.getElem?_eq_none (by simp; omega),
        List.getElem?_eq_none (by omega)]
  | _ => rfl

@[simp] theorem add_node_out_edges (g : graph_t) (fn : Bool) :
    (add_node g fn).2.out_edges = g.out_edges := by
  funext u
  by_cases h : u = .node g.nodes.length
  · subst h
    rw [out_edges_of_not_mem (g := g) (by simp)]
    simp [graph_t.out_edges, node?_add_node]
  · simp [graph_t.out_edges, node?_add_node, h]

theorem add_node_fn (g : graph_t) (fn : Bool) (u : graph_node_t) :
    (add_node g fn).2.fn u = if u = .node g.nodes.length then fn else g.fn u := by
  unfold graph_t.fn
  rw [node?_add_node]
  split_ifs <;> rfl

@[simp] theorem add_node_nodes_length (g : graph_t) (fn : Bool) :
    (add_node g fn).2.nodes.length = g.nodes.length + 1 := by
  simp [add_node]

theorem mem_handles_add_node {g : graph_t} {u : graph_node_t} (fn : Bool) (hu : u ∈ g.handles) :
    u ∈ (add_node g fn).2.handles := by
  rcases mem_handles.mp hu with rfl | ⟨i, hi, rfl⟩
  · simp
  · simp only [mem_handles, add_node_nodes_length]
    exact .inr ⟨i, by omega, rfl⟩

theorem mem_handles_add_node_self (g : graph_t) (fn : Bool) :
    graph_node_t.node g.nodes.length ∈ (add_node g fn).2.handles := by
  simp

theorem add_node_wellFormed {g : graph_t} (hg : WellFormed g) (fn : Bool) :
    WellFormed (add_node g fn).2 := by
  set g' := (add_node g fn).2 with hg'
  have hnode : ∀ u, u ≠ .node g.nodes.length → g'.node? u = g.node? u := by
    intro u hu
    cases u with
    | node i =>
      have : i ≠ g.nodes.length := fun h => hu (by rw [h])
      rcases Nat.lt_or_gt_of_ne this with h | h
      · simp [hg', add_node, graph_t.node?, List.getElem?_append_left h]
      · have h1 : g.nodes[i]? = none := List.getElem?_eq_none (by omega)
        have h2 : (g.nodes ++ [(⟨0, fn, []⟩ : node_impl_t)])[i]? = none :=
          List.getElem?_eq_none (by simp only [List.length_append, List.length_singleton]; omega)
        simp only [hg', add_node, graph_t.node?, h1, h2]
    | _ => rfl
  have hnew : g'.node? (.node g.nodes.length) = some ⟨0, fn, []⟩ := by
    simp [hg', add_node, graph_t.node?]
  have hout : ∀ u, g'.out_edges u = g.out_edges u := by
    intro u
    by_cases hu : u = .node g.nodes.length
    · subst hu
      rw [graph_t.out_edges, hnew, out_edges_of_not_mem (by simp)]
      rfl
    · simp [graph_t.out_edges, hnode u hu]
  have hhandles : g'.handles.toFinset = insert (.node g.nodes.length) g.handles.toFinset := by
    ext u
    simp only [List.mem_toFinset, Finset.mem_insert, mem_handles, hg', add_node,
      List.length_append, List.length_singleton]
    constructor
    · rintro (h | ⟨i, hi, rfl⟩)
      · exact .inr (.inl h)
      · rcases Nat.lt_succ_iff_lt_or_eq.mp hi with hi | rfl
        · exact .inr (.inr ⟨i, hi, rfl⟩)
        · exact .inl rfl
    · rintro (rfl | h | ⟨i, hi, rfl⟩)
      · exact .inr ⟨_, Nat.lt_succ_self _, rfl⟩
      · exact .inl h
      · exact .inr ⟨i, by omega, rfl⟩
  have hindeg : ∀ v, g'.indegree v = g.indegree v := by
    intro v
    rw [graph_t.indegree, graph_t.indegree, hhandles, Finset.sum_insert (by simp)]
    simp [hout, out_edges_of_not_mem (by simp : graph_node_t.node g.nodes.length ∉ g.handles)]
  have hnot : ∀ u, ∀ e ∈ g.out_edges u, e.1 ≠ .node g.nodes.length := by
    intro u e he h
    rcases hg.targets u e he with h' | ⟨h', -⟩
    · rw [h] at h'
      cases h'
    · rw [h] at h'
      simp at h'
  constructor
  · intro u e he
    rw [hout] at he
    rcases hg.targets u e he with h | ⟨h, h'⟩
    · exact .inl h
    · refine .inr ⟨?_, h'⟩
      rw [← List.mem_toFinset, hhandles]
      exact Finset.mem_insert_of_mem (List.mem_toFinset.mpr h)
  · intro v hv
    rw [← List.mem_toFinset, hhandles, Finset.mem_insert, List.mem_toFinset] at hv
    rcases hv with rfl | hv
    · rw [hindeg, graph_t.signals_expected, hnew]
      symm
      simp only [Option.map_some, Option.getD_some, graph_t.indegree]
      refine Finset.sum_eq_zero fun u _ => List.countP_eq_zero.mpr fun e he h => ?_
      exact hnot u e he (of_decide_eq_true h)
    · have hv' : v ≠ .node g.nodes.length := by
        rintro rfl
        simp at hv
      rw [hindeg, ← hg.expected v hv, graph_t.signals_expected, graph_t.signals_expected,
        hnode v hv']
  · rw [hindeg, ← hg.end_expected]
    rfl

theorem indegree_modify_append {g : graph_t} {u : graph_node_t} (hu : u ∈ g.handles)
    (x : graph_node_t × Bool) (v : graph_node_t) :
    (g.modify u fun n => { n with out_edges := n.out_edges ++ [x] }).indegree v =
      g.indegree v + if x.1 = v then 1 else 0 := by
  simp only [graph_t.indegree, handles_modify, out_edges_modify_append hu, List.countP_append]
  rw [Finset.sum_add_distrib]
  congr 1
  rw [Finset.sum_eq_single_of_mem u (List.mem_toFinset.mpr hu)]
  · simp
  · intro w _ hw
    simp [Ne.symm hw]

theorem indegree_modify_expected (g : graph_t) (u : graph_node_t) :
    (g.modify u fun n => { n with signals_expected := n.signals_expected + 1 }).indegree =
      g.indegree := by
  funext v
  simp only [graph_t.indegree, handles_modify, out_edges_modify_expected]

theorem add_edge_wellFormed {g g' : graph_t} (hg : WellFormed g) {src dst : graph_node_t}
    {fn : Bool} (hsrc : src ∈ g.handles) (hdst : dst = .GRAPH_END ∨ dst ∈ g.handles)
    (h : add_edge g src dst fn = some g') : WellFormed g' := by
  unfold add_edge at h
  split_ifs at h with h1 h2
  all_goals cases h
  · -- an edge into `GRAPH_END`
    subst h2
    constructor
    · intro u e he
      rw [out_edges_set_end, out_edges_modify_append hsrc] at he
      rcases List.mem_append.mp he with he | he
      · simpa using hg.targets u e he
      · split_ifs at he <;> simp_all
    · intro v hv
      simp only [handles_set_end, handles_modify] at hv
      have hv' : v ≠ .GRAPH_END := by
        rintro rfl
        simp at hv
      rw [indegree_set_end, indegree_modify_append hsrc, if_neg (Ne.symm hv'), Nat.add_zero,
        ← hg.expected v hv, signals_expected_set_end, signals_expected_modify_append]
      rfl
    · simp [indegree_modify_append hsrc, hg.end_expected]
  · -- an edge into a node
    have hdst' : dst ∈ g.handles := hdst.resolve_left h2
    have hne : dst ≠ .GRAPH_START := fun h => h1 (.inl h)
    constructor
    · intro u e he
      rw [out_edges_modify_expected, out_edges_modify_append hsrc] at he
      rcases List.mem_append.mp he with he | he
      · simpa using hg.targets u e he
      · split_ifs at he <;> simp_all
    · intro v hv
      simp only [handles_modify] at hv
      rw [signals_expected_modify_expected (by simpa using hdst'),
        signals_expected_modify_append, hg.expected v hv, indegree_modify_expected,
        indegree_modify_append hsrc]
    · rw [indegree_modify_expected, indegree_modify_append hsrc, if_neg h2, Nat.add_zero,
        ← hg.end_expected]
      simp

theorem add_edge_eq_some {g : graph_t} {src dst : graph_node_t} {fn : Bool}
    (hsrc : src ≠ .GRAPH_END) (hdst : dst ≠ .GRAPH_START) : ∃ g', add_edge g src dst fn = some g' := by
  unfold add_edge
  rw [if_neg (by tauto)]
  split_ifs <;> exact ⟨_, rfl⟩

section AddEdge

variable {g g' : graph_t} {src dst : graph_node_t} {fn : Bool}

/-- `add_edge` appends the edge to its source's out-edges and changes no other. -/
theorem out_edges_add_edge (hsrc : src ∈ g.handles) (h : add_edge g src dst fn = some g')
    (v : graph_node_t) :
    g'.out_edges v = g.out_edges v ++ if src = v then [(dst, fn)] else [] := by
  unfold add_edge at h
  split_ifs at h with h1 h2 <;> cases h
  · rw [out_edges_set_end, out_edges_modify_append hsrc]
  · rw [out_edges_modify_expected, out_edges_modify_append hsrc]

theorem add_edge_nodes_length (h : add_edge g src dst fn = some g') :
    g'.nodes.length = g.nodes.length := by
  have hmod : ∀ (g : graph_t) (u : graph_node_t) (f : node_impl_t → node_impl_t),
      (g.modify u f).nodes.length = g.nodes.length := by
    intro g u f
    cases u <;> simp [graph_t.modify]
  unfold add_edge at h
  split_ifs at h <;> cases h <;> simp [hmod]

theorem add_edge_handles (h : add_edge g src dst fn = some g') : g'.handles = g.handles := by
  simp only [graph_t.handles, add_edge_nodes_length h]

theorem add_edge_fn (h : add_edge g src dst fn = some g') : g'.fn = g.fn := by
  have hmod : ∀ (g : graph_t) (u : graph_node_t) (f : node_impl_t → node_impl_t),
      (∀ n, (f n).fn = n.fn) → (g.modify u f).fn = g.fn := by
    intro g u f hf
    funext v
    unfold graph_t.fn
    rw [node?_modify]
    split_ifs
    · cases g.node? v <;> simp [hf]
    · rfl
  unfold add_edge at h
  have hsrc := hmod g src (fun n => { n with out_edges := n.out_edges ++ [(dst, fn)] })
    fun _ => rfl
  split_ifs at h <;> cases h
  · exact hsrc
  · rw [hmod _ dst (fun n => { n with signals_expected := n.signals_expected + 1 }) fun _ => rfl]
    exact hsrc

end AddEdge

/-- A node with an edge into it has a positive in-degree. -/
theorem indegree_pos {g : graph_t} {u v : graph_node_t} {e : graph_node_t × Bool}
    (hu : u ∈ g.handles) (he : e ∈ g.out_edges u) (hv : e.1 = v) : 0 < g.indegree v := by
  have hterm : 0 < (g.out_edges u).countP (·.1 = v) :=
    List.countP_pos_iff.mpr ⟨e, he, by simp [hv]⟩
  unfold graph_t.indegree
  exact lt_of_lt_of_le hterm
    (Finset.single_le_sum (f := fun w => (g.out_edges w).countP (·.1 = v))
      (fun _ _ => Nat.zero_le _) (List.mem_toFinset.mpr hu))

end Lci.Graph
