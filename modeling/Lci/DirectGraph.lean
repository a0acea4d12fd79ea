import Lci.Collective
import Lci.Graph

/-! The direct algorithms of `allreduce_x` and `reduce_scatter_x`. Each rank builds one completion
graph (`build_graph_direct`): for every other rank a send of its contribution, a receive of the
peer's contribution into a slice of `tmp_buffer`, and a reduce node that combines that slice into
`recvbuf`; the reduce nodes form a chain, and a last node frees `tmp_buffer`. The two functions
differ only in what they send, where `tmp_buffer`'s slices start, and whether the sends precede
the free node: one loop (`build_graph_direct`) takes these as parameters.

All ranks then run their graphs. A node runs once all nodes with an edge into it have run; a send
puts its buffer's contents on the network, a receive takes the message its peer sent it, a reduce
combines with `op`, and the free node frees `tmp_buffer`, after which a node that touches
`tmp_buffer` is a use after free. A buffer's contents are a value of a commutative semigroup, as in
`Reduce`. -/

open Lci.Collective (wrap wrap_of_bounds)
open Lci.Graph (graph_node_t)

set_option linter.constructorNameAsVariable false

namespace Lci.DirectGraph

/-- The places the graphs read and write: chunk `j` of `sendbuf`, `recvbuf`, and slice `k` of
`tmp_buffer`, each `count * item_size` bytes. -/
inductive Loc
  | sendbuf (j : Int)
  | recvbuf
  | tmp (k : Nat)
  deriving DecidableEq, Repr

def Loc.is_tmp : Loc → Bool
  | .tmp _ => true
  | _ => false

/-- The operation of a node: `post_send_x` and `post_recv_x` with their rank and local buffer,
`reduce_wrapper_fn` with its `tmp_buffer` and `recvbuf`, and the lambda that frees `tmp_buffer`. -/
inductive NodeOp
  | send (target : Int) (buf : Loc)
  | recv (target : Int) (buf : Loc)
  | reduce (tmp_buffer recvbuf : Loc)
  | free
  deriving DecidableEq, Repr

/-- The graph as `build_graph_direct` builds it: the operations of `graph_add_node_x` and
`graph_add_node_op` in the order they were added (`.node i` is the `i`-th), the edges of
`graph_add_edge`, and the two locals the loop carries. -/
structure Builder where
  nodes : List NodeOp
  edges : List (graph_node_t × graph_node_t)
  prev_reduce_node : Option graph_node_t
  p : Nat

def Builder.add_node (b : Builder) (op : NodeOp) : graph_node_t × Builder :=
  (.node b.nodes.length, { b with nodes := b.nodes ++ [op] })

def Builder.add_edge (b : Builder) (src dst : graph_node_t) : Builder :=
  { b with edges := b.edges ++ [(src, dst)] }

/-- `int target = (i + rank) % nranks`, in `int`. -/
def target_of (nranks rank i : Nat) : Int := (wrap ((i : Int) + rank)).tmod nranks

/-- One iteration of the loop over `i`: the send to `target` from `send_buf target`, followed by
`send_next`; the receive into slice `p`; its reduce into `recvbuf`, after the previous one. -/
def loop_body (nranks rank : Nat) (send_buf : Int → Loc) (send_next : graph_node_t)
    (recvbuf : Loc) (b : Builder) (i : Nat) : Builder :=
  let target := target_of nranks rank i
  let (send_node, b) := b.add_node (.send target (send_buf target))
  let b := (b.add_edge .GRAPH_START send_node).add_edge send_node send_next
  let (recv_node, b) := b.add_node (.recv target (.tmp b.p))
  let (reduce_node, b) := b.add_node (.reduce (.tmp b.p) recvbuf)
  let b := (b.add_edge .GRAPH_START recv_node).add_edge recv_node reduce_node
  let b := match b.prev_reduce_node with
    | some prev_reduce_node => b.add_edge prev_reduce_node reduce_node
    | none => b
  { b with prev_reduce_node := some reduce_node, p := b.p + 1 }

/-- `build_graph_direct` after the `memcpy`: the free node first, the loop over
`i = 1, …, nranks - 1` with `p` starting at slice `p0`, then the edges from the last reduce to
the free node and from the free node to `GRAPH_END`. -/
def build_graph_direct (nranks rank : Nat) (send_buf : Int → Loc) (send_next : graph_node_t)
    (recvbuf : Loc) (p0 : Nat) : Builder :=
  let (free_node, b) := Builder.add_node ⟨[], [], none, p0⟩ .free
  let b := (List.range' 1 (nranks - 1)).foldl (loop_body nranks rank send_buf send_next recvbuf) b
  let b := match b.prev_reduce_node with
    | some prev_reduce_node => b.add_edge prev_reduce_node free_node
    | none => b
  b.add_edge free_node .GRAPH_END

/-- allreduce's `build_graph_direct`. In place (`recvbuf == sendbuf`) the sends read a copy of
`sendbuf` in the first slice of `tmp_buffer` and the receives use the slices after it; every send
precedes the free node. -/
def allreduce_build_graph_direct (nranks rank : Nat) (in_place : Bool) : Builder :=
  build_graph_direct nranks rank (fun _ => if in_place then .tmp 0 else .sendbuf 0) (.node 0)
    (if in_place then .sendbuf 0 else .recvbuf) (if in_place then 1 else 0)

/-- allreduce's `memcpy`: `sendbuf` to `recvbuf`, or in place to the first slice of
`tmp_buffer`. -/
def allreduce_prepare {α : Type} (in_place : Bool) (mem : Loc → α) : Loc → α :=
  if in_place then Function.update mem (.tmp 0) (mem (.sendbuf 0))
  else Function.update mem .recvbuf (mem (.sendbuf 0))

/-- The slices of allreduce's `tmp_buffer`: `nranks - 1`, or `nranks` in place. -/
def allreduce_tmp_slices (nranks : Nat) (in_place : Bool) : Nat :=
  if in_place then nranks else nranks - 1

/-- reduce_scatter's `build_graph_direct`: the send to `target` reads chunk `target` of `sendbuf`
and goes straight to `GRAPH_END`; in place (`recvbuf` is chunk `rank` of `sendbuf`) the reduces
combine into that chunk. -/
def reduce_scatter_build_graph_direct (nranks rank : Nat) (in_place : Bool) : Builder :=
  build_graph_direct nranks rank (fun target => .sendbuf target) .GRAPH_END
    (if in_place then .sendbuf rank else .recvbuf) 0

/-- reduce_scatter's `memcpy`: chunk `rank` of `sendbuf` to `recvbuf`, unless in place. -/
def reduce_scatter_prepare {α : Type} (rank : Nat) (in_place : Bool) (mem : Loc → α) : Loc → α :=
  if in_place then mem else Function.update mem .recvbuf (mem (.sendbuf rank))

/-- reduce_scatter's `tmp_buffer` has `nranks - 1` slices. -/
def reduce_scatter_tmp_slices (nranks : Nat) : Nat := nranks - 1

/-! ### Running the graphs of all ranks -/

theorem update_update_apply {β : Type} (f : Nat → Loc → β) (r : Nat) (L : Loc) (x : β) (r' : Nat)
    (L' : Loc) :
    Function.update f r (Function.update (f r) L x) r' L' = if r' = r ∧ L' = L then x else f r' L' := by
  by_cases hr : r' = r
  · subst hr
    by_cases hL : L' = L
    · simp [hL]
    · simp [hL]
  · simp [hr]

/-- The ranks' memory, which nodes of each rank's graph have run, the messages sent and not yet
received (source, destination, contents), whether each rank freed `tmp_buffer`, and whether a
node touched a freed `tmp_buffer`. -/
structure State (α : Type) where
  mem : Nat → Loc → α
  done : Nat → Nat → Bool
  inflight : List (Nat × Int × α)
  freed : Nat → Bool
  fault : Bool

def NodeOp.touches_tmp : NodeOp → Bool
  | .send _ buf | .recv _ buf => buf.is_tmp
  | .reduce tmp_buffer recvbuf => tmp_buffer.is_tmp || recvbuf.is_tmp
  | .free => true

/-- Node `v` of rank `r` has run. -/
def State.mark {α : Type} (s : State α) (r v : Nat) : State α :=
  { s with done := Function.update s.done r (Function.update (s.done r) v true) }

section Fields

variable {α : Type} (s : State α) (r v : Nat)

@[simp] theorem mark_mem : (s.mark r v).mem = s.mem := rfl
@[simp] theorem mark_inflight : (s.mark r v).inflight = s.inflight := rfl
@[simp] theorem mark_freed : (s.mark r v).freed = s.freed := rfl
@[simp] theorem mark_fault : (s.mark r v).fault = s.fault := rfl
theorem mark_done (r' v' : Nat) : (s.mark r v).done r' v' = ((r' = r ∧ v' = v) || s.done r' v') := by
  by_cases h : r' = r
  · subst h
    by_cases h' : v' = v
    · simp [State.mark, h']
    · simp [State.mark, h']
  · simp [State.mark, h]

theorem mark_done_of_ne {r' v' : Nat} (h : v' ≠ v) : (s.mark r v).done r' v' = s.done r' v' := by
  simp [mark_done, h]

theorem mark_done_of_rank_ne {r' : Nat} (h : r' ≠ r) (v' : Nat) :
    (s.mark r v).done r' v' = s.done r' v' := by
  simp [mark_done, h]

/-- The reduces that have run, after one more: the filter gains `j`. -/
theorem filter_mark_reduce {x : State α} {j k : Nat} (hj : j < k) :
    (Finset.range k).filter (fun j' => (x.mark r (3 * j + 3)).done r (3 * j' + 3) = true) =
      insert j ((Finset.range k).filter (fun j' => x.done r (3 * j' + 3) = true)) := by
  ext j'
  simp only [Finset.mem_filter, Finset.mem_range, Finset.mem_insert, mark_done]
  constructor
  · rintro ⟨hj', h⟩
    by_cases hjj : j' = j
    · exact .inl hjj
    · exact .inr ⟨hj', by simpa [hjj] using h⟩
  · rintro (rfl | ⟨hj', h⟩)
    · exact ⟨hj, by simp⟩
    · exact ⟨hj', by simp [h]⟩

theorem filter_mark_of_ne (h : ∀ j, 3 * j + 3 ≠ v) (r' k : Nat) :
    (Finset.range k).filter (fun j => (s.mark r v).done r' (3 * j + 3) = true) =
      (Finset.range k).filter (fun j => s.done r' (3 * j + 3) = true) :=
  Finset.filter_congr fun j _ => by rw [mark_done_of_ne _ _ _ (h j)]

end Fields

/-- A node can run when it has not, and every node with an edge into it has. -/
def ready (b : Builder) (done : Nat → Bool) (v : Nat) : Bool :=
  !done v && b.edges.all fun e =>
    match e with
    | (.node u, .node w) => w != v || done u
    | _ => true

section Semantics

variable {α : Type} [CommSemigroup α]

/-- What running an operation at `rank` does. A receive takes the first message from `target`
to `rank` and waits while there is none. -/
def exec_op (rank : Nat) (s : State α) : NodeOp → Option (State α)
  | .send target buf => some { s with inflight := s.inflight ++ [(rank, target, s.mem rank buf)] }
  | .recv target buf =>
    match s.inflight.find? fun m => (m.1 : Int) = target ∧ m.2.1 = (rank : Int) with
    | some m =>
      some { s with
        mem := Function.update s.mem rank (Function.update (s.mem rank) buf m.2.2)
        inflight := s.inflight.eraseP fun m => (m.1 : Int) = target ∧ m.2.1 = (rank : Int) }
    | none => none
  | .reduce tmp_buffer recvbuf =>
    some { s with
      mem := Function.update s.mem rank
        (Function.update (s.mem rank) recvbuf (s.mem rank tmp_buffer * s.mem rank recvbuf)) }
  | .free => some { s with freed := Function.update s.freed rank true }

/-- Rank `rank` of `nranks` runs node `v` of its graph `G rank`. -/
def step (nranks : Nat) (G : Nat → Builder) (s : State α) : Nat × Nat → Option (State α)
  | (rank, v) =>
    if rank < nranks ∧ ready (G rank) (s.done rank) v = true then
      match (G rank).nodes[v]? with
      | some op =>
        if s.freed rank && op.touches_tmp then some { s with fault := true }
        else (exec_op rank s op).map fun s' =>
          { s' with done := Function.update s'.done rank (Function.update (s'.done rank) v true) }
      | none => none
    else none

/-- Before `graph_start`: each rank's memory after its `memcpy`, nothing run or sent. -/
def init (mem : Nat → Loc → α) : State α := ⟨mem, fun _ _ => false, [], fun _ => false, false⟩

def Reachable (nranks : Nat) (G : Nat → Builder) (mem : Nat → Loc → α) : State α → Prop :=
  Machine.Reachable (· = init mem) fun s s' => ∃ a, step nranks G s a = some s'

end Semantics

/-! ### The graph each rank builds -/

/-- Below `2^30` ranks `i + rank` never wraps: the target is the rank `i` places on. -/
theorem target_of_eq {nranks rank i : Nat} (hn' : nranks ≤ 2 ^ 30) (hr : rank < nranks)
    (hi : i < nranks) : target_of nranks rank i = ((i + rank) % nranks : Nat) := by
  unfold target_of
  rw [wrap_of_bounds (by omega) (by omega), Int.tmod_eq_emod_of_nonneg (by omega)]
  push_cast
  rfl

section Layout

variable (nranks rank : Nat) (send_buf : Int → Loc) (send_next : graph_node_t) (recvbuf : Loc)
  (p0 : Nat)

/-- The nodes iteration `i = j + 1` adds: its send, its receive into slice `p0 + j`, its reduce. -/
def iteration (j : Nat) : List NodeOp :=
  [.send (target_of nranks rank (j + 1)) (send_buf (target_of nranks rank (j + 1))),
    .recv (target_of nranks rank (j + 1)) (.tmp (p0 + j)), .reduce (.tmp (p0 + j)) recvbuf]

/-- The builder after the free node and `k` iterations: iteration `j` added nodes `3j + 1`,
`3j + 2` and `3j + 3`, with the receive before its reduce, each reduce before the next, and each
send before `send_next`. -/
structure Built (k : Nat) (b : Builder) : Prop where
  nodes_eq : b.nodes = .free :: (List.range k).flatMap (iteration nranks rank send_buf recvbuf p0)
  p_eq : b.p = p0 + k
  prev_eq : b.prev_reduce_node = if k = 0 then none else some (.node (3 * k))
  recv_reduce : ∀ j < k, (.node (3 * j + 2), .node (3 * j + 3)) ∈ b.edges
  chain : ∀ j, j + 1 < k → (.node (3 * j + 3), .node (3 * j + 6)) ∈ b.edges
  send_next : ∀ j < k, (.node (3 * j + 1), send_next) ∈ b.edges

variable {nranks rank send_buf send_next recvbuf p0}

theorem length_iterations (k : Nat) :
    (NodeOp.free :: (List.range k).flatMap (iteration nranks rank send_buf recvbuf p0)).length =
      3 * k + 1 := by
  induction k with
  | zero => rfl
  | succ k ih =>
    simp only [List.length_cons, List.range_succ, List.flatMap_append, List.length_append] at ih ⊢
    simp [iteration]
    omega

/-- Node `3j + 1 + m` is the `m`-th node of iteration `j`. -/
theorem getElem?_iterations {k j m : Nat} (hj : j < k) (hm : m < 3) :
    (NodeOp.free :: (List.range k).flatMap (iteration nranks rank send_buf recvbuf p0))[3 * j + 1 + m]? =
      (iteration nranks rank send_buf recvbuf p0 j)[m]? := by
  induction k with
  | zero => omega
  | succ k ih =>
    have hlen : (NodeOp.free :: (List.range k).flatMap
        (iteration nranks rank send_buf recvbuf p0)).length = 3 * k + 1 := length_iterations k
    rw [List.range_succ, List.flatMap_append, ← List.cons_append, List.flatMap_singleton]
    rcases Nat.lt_or_ge j k with hjk | hjk
    · rw [List.getElem?_append_left (by omega), ih hjk]
    · rw [List.getElem?_append_right (by omega), hlen, show j = k by omega]
      congr 1
      omega

/-- A node of the graph is the free node or one of an iteration's three. -/
theorem Built.getElem?_cases {k : Nat} {b : Builder}
    (hb : Built nranks rank send_buf send_next recvbuf p0 k b) {v : Nat} {op : NodeOp}
    (h : b.nodes[v]? = some op) :
    (v = 0 ∧ op = .free) ∨ ∃ j < k,
      (v = 3 * j + 1 ∧ op = .send (target_of nranks rank (j + 1))
        (send_buf (target_of nranks rank (j + 1)))) ∨
      (v = 3 * j + 2 ∧ op = .recv (target_of nranks rank (j + 1)) (.tmp (p0 + j))) ∨
      (v = 3 * j + 3 ∧ op = .reduce (.tmp (p0 + j)) recvbuf) := by
  rw [hb.nodes_eq] at h
  rcases Nat.eq_zero_or_pos v with rfl | hv
  · simp at h
    exact .inl ⟨rfl, h.symm⟩
  · have hlt : v < 3 * k + 1 := by
      have := (List.getElem?_eq_some_iff.mp h).1
      rwa [length_iterations] at this
    have hv' : v = 3 * ((v - 1) / 3) + 1 + (v - 1) % 3 := by omega
    rw [hv', getElem?_iterations (by omega) (Nat.mod_lt _ (by omega))] at h
    refine .inr ⟨(v - 1) / 3, by omega, ?_⟩
    have hm : (v - 1) % 3 = 0 ∨ (v - 1) % 3 = 1 ∨ (v - 1) % 3 = 2 := by omega
    rcases hm with hm | hm | hm <;> rw [hm] at h hv' <;> simp [iteration] at h
    · exact .inl ⟨hv', h.symm⟩
    · exact .inr (.inl ⟨hv', h.symm⟩)
    · exact .inr (.inr ⟨hv', h.symm⟩)

theorem loop_body_eq (b : Builder) (i : Nat) :
    loop_body nranks rank send_buf send_next recvbuf b i =
      { nodes := b.nodes ++ [.send (target_of nranks rank i) (send_buf (target_of nranks rank i)),
          .recv (target_of nranks rank i) (.tmp b.p), .reduce (.tmp b.p) recvbuf]
        edges := b.edges ++ [(.GRAPH_START, .node b.nodes.length),
          (.node b.nodes.length, send_next), (.GRAPH_START, .node (b.nodes.length + 1)),
          (.node (b.nodes.length + 1), .node (b.nodes.length + 2))] ++
          (b.prev_reduce_node.map fun u => (u, .node (b.nodes.length + 2))).toList
        prev_reduce_node := some (.node (b.nodes.length + 2))
        p := b.p + 1 } := by
  unfold loop_body
  cases h : b.prev_reduce_node <;> simp [Builder.add_node, Builder.add_edge, h]

theorem Built.add_edge {k : Nat} {b : Builder} (hb : Built nranks rank send_buf send_next recvbuf p0 k b)
    (u v : graph_node_t) : Built nranks rank send_buf send_next recvbuf p0 k (b.add_edge u v) where
  nodes_eq := hb.nodes_eq
  p_eq := hb.p_eq
  prev_eq := hb.prev_eq
  recv_reduce j hj := List.mem_append_left _ (hb.recv_reduce j hj)
  chain j hj := List.mem_append_left _ (hb.chain j hj)
  send_next j hj := List.mem_append_left _ (hb.send_next j hj)

/-- One iteration adds its three nodes and the edges between them. -/
theorem Built.loop_body {k : Nat} {b : Builder}
    (hb : Built nranks rank send_buf send_next recvbuf p0 k b) :
    Built nranks rank send_buf send_next recvbuf p0 (k + 1)
      (loop_body nranks rank send_buf send_next recvbuf b (k + 1)) := by
  have hlen : b.nodes.length = 3 * k + 1 := by
    rw [hb.nodes_eq, length_iterations]
  rw [loop_body_eq, hlen]
  constructor
  · simp [hb.nodes_eq, List.range_succ, iteration, hb.p_eq]
  · simp only [hb.p_eq]
    omega
  · simp
    omega
  · intro j hj
    rcases Nat.lt_or_ge j k with hjk | hjk
    · exact List.mem_append_left _ (List.mem_append_left _ (hb.recv_reduce j hjk))
    · obtain rfl : j = k := by omega
      simp
  · intro j hj
    rcases Nat.lt_or_ge (j + 1) k with hjk | hjk
    · exact List.mem_append_left _ (List.mem_append_left _ (hb.chain j hjk))
    · -- the new reduce follows the previous one, node `3k`
      obtain rfl : j + 1 = k := by omega
      simp [hb.prev_eq]
      omega
  · intro j hj
    rcases Nat.lt_or_ge j k with hjk | hjk
    · exact List.mem_append_left _ (List.mem_append_left _ (hb.send_next j hjk))
    · obtain rfl : j = k := by omega
      simp

theorem built_foldl (b : Builder) (hb : Built nranks rank send_buf send_next recvbuf p0 0 b) :
    ∀ k, Built nranks rank send_buf send_next recvbuf p0 k
      ((List.range' 1 k).foldl (loop_body nranks rank send_buf send_next recvbuf) b)
  | 0 => hb
  | k + 1 => by
    rw [List.range'_concat, List.foldl_append, List.foldl_cons, List.foldl_nil,
      show 1 + 1 * k = k + 1 by omega]
    exact (built_foldl b hb k).loop_body

variable (nranks rank send_buf send_next recvbuf p0) in
/-- **The graph of `build_graph_direct`.** Past the free node, node `3j + 1` sends to the rank
`j + 1` places on, node `3j + 2` receives from it into slice `p0 + j`, and node `3j + 3` combines
that slice into `recvbuf`; the last reduce precedes the free node. -/
theorem build_graph_direct_built (hn : 2 ≤ nranks) :
    Built nranks rank send_buf send_next recvbuf p0 (nranks - 1)
        (build_graph_direct nranks rank send_buf send_next recvbuf p0) ∧
      (.node (3 * (nranks - 1)), .node 0) ∈
        (build_graph_direct nranks rank send_buf send_next recvbuf p0).edges := by
  have h0 : Built nranks rank send_buf send_next recvbuf p0 0
      (Builder.add_node ⟨[], [], none, p0⟩ .free).2 :=
    ⟨rfl, rfl, rfl, fun _ h => absurd h (Nat.not_lt_zero _), fun _ h => absurd h (by omega),
      fun _ h => absurd h (Nat.not_lt_zero _)⟩
  have hk := built_foldl _ h0 (nranks - 1)
  have hprev := hk.prev_eq
  rw [if_neg (by omega)] at hprev
  unfold build_graph_direct
  simp only [Builder.add_node, List.nil_append, List.length_nil] at hprev ⊢
  rw [hprev]
  refine ⟨(hk.add_edge _ _).add_edge _ _, ?_⟩
  simp [Builder.add_edge]

end Layout

/-! ### What the graphs are for -/

/-- A rank's graph sends to every other rank once and receives from every other rank once, and
has no other peer. -/
def Exchanges (nranks rank : Nat) (b : Builder) : Prop :=
  (∀ t < nranks, t ≠ rank →
    (∃! v : Nat, ∃ buf, b.nodes[v]? = some (NodeOp.send t buf)) ∧
      ∃! v : Nat, ∃ buf, b.nodes[v]? = some (NodeOp.recv t buf)) ∧
  ∀ (v : Nat) (t : Int) (buf : Loc),
    (b.nodes[v]? = some (NodeOp.send t buf) ∨ b.nodes[v]? = some (NodeOp.recv t buf)) →
    ∃ t' < nranks, t = t' ∧ t' ≠ rank

/-- Every receive writes a slice of `tmp_buffer` among slices `lo, …, hi - 1`, and no two
receives the same one. -/
def DistinctSlices (b : Builder) (lo hi : Nat) : Prop :=
  (∀ (v : Nat) (t : Int) (buf : Loc), b.nodes[v]? = some (NodeOp.recv t buf) →
    ∃ k, buf = Loc.tmp k ∧ lo ≤ k ∧ k < hi) ∧
  ∀ (v v' : Nat) (t t' : Int) (k : Nat), b.nodes[v]? = some (NodeOp.recv t (Loc.tmp k)) → b.nodes[v']? = some (NodeOp.recv t' (Loc.tmp k)) →
    v = v'

/-! ### The invariant of a run -/

/-- The rank iteration `i = j + 1` of rank `rank` talks to. -/
def peer (nranks rank j : Nat) : Nat := (j + 1 + rank) % nranks

section Peers

variable {nranks rank : Nat}

theorem peer_lt (hn : 0 < nranks) (j : Nat) : peer nranks rank j < nranks := Nat.mod_lt _ hn

theorem mod_eq_of_lt_two_mul {x : Nat} (h : x < 2 * nranks) :
    x % nranks = if x < nranks then x else x - nranks := by
  split_ifs with hx
  · exact Nat.mod_eq_of_lt hx
  · rw [Nat.mod_eq_sub_mod (by omega), Nat.mod_eq_of_lt (by omega)]

theorem peer_ne (hr : rank < nranks) {j : Nat} (hj : j + 1 < nranks) : peer nranks rank j ≠ rank := by
  unfold peer
  rw [mod_eq_of_lt_two_mul (by omega)]
  split_ifs <;> omega

theorem peer_inj (hr : rank < nranks) {j j' : Nat} (hj : j + 1 < nranks) (hj' : j' + 1 < nranks)
    (h : peer nranks rank j = peer nranks rank j') : j = j' := by
  unfold peer at h
  rw [mod_eq_of_lt_two_mul (by omega), mod_eq_of_lt_two_mul (by omega)] at h
  split_ifs at h <;> omega

theorem target_of_succ (hn' : nranks ≤ 2 ^ 30) (hr : rank < nranks) {j : Nat}
    (hj : j + 1 < nranks) : target_of nranks rank (j + 1) = peer nranks rank j :=
  target_of_eq hn' hr hj

end Peers

/-- The parameters one direct algorithm passes `build_graph_direct` on each rank. -/
structure Direct where
  nranks : Nat
  send_buf : Nat → Int → Loc
  send_next : graph_node_t
  recvbuf : Nat → Loc
  p0 : Nat → Nat

/-- Every rank's graph. -/
def Direct.graphs (D : Direct) (r : Nat) : Builder :=
  build_graph_direct D.nranks r (D.send_buf r) D.send_next (D.recvbuf r) (D.p0 r)

/-- What the proofs need of the buffers a direct graph uses: at most `2^30` ranks, so that no
target wraps; a send never reads a receive's slice, nor `recvbuf` (its peer is another rank);
`recvbuf` is not in `tmp_buffer`; and a send that reads `tmp_buffer` precedes the free node. -/
structure Direct.BufferLayout (D : Direct) : Prop where
  two_le : 2 ≤ D.nranks
  le_pow : D.nranks ≤ 2 ^ 30
  send_ne_slot : ∀ r t j, D.send_buf r t ≠ .tmp (D.p0 r + j)
  send_ne_recvbuf : ∀ r < D.nranks, ∀ j, j + 1 < D.nranks →
    D.send_buf r (peer D.nranks r j) ≠ D.recvbuf r
  recvbuf_not_tmp : ∀ r, (D.recvbuf r).is_tmp = false
  send_tmp : ∀ r t, (D.send_buf r t).is_tmp = true → D.send_next = .node 0

section Run

variable {α : Type} [CommSemigroup α] {nranks : Nat}

theorem step_eq_some {G : Nat → Builder} {s s' : State α} {r v : Nat}
    (h : step nranks G s (r, v) = some s') :
    r < nranks ∧ ready (G r) (s.done r) v = true ∧ ∃ op, (G r).nodes[v]? = some op ∧
      ((s.freed r && op.touches_tmp) = true ∧ s' = { s with fault := true } ∨
        (s.freed r && op.touches_tmp) = false ∧ ∃ s'', exec_op r s op = some s'' ∧
          s' = s''.mark r v) := by
  dsimp only [step] at h
  split_ifs at h with hready
  obtain ⟨hr, hrd⟩ := hready
  refine ⟨hr, hrd, ?_⟩
  cases hop : (G r).nodes[v]? with
  | none => simp [hop] at h
  | some op =>
    simp only [hop] at h
    refine ⟨op, rfl, ?_⟩
    split_ifs at h with hf
    · exact .inl ⟨hf, (Option.some.inj h).symm⟩
    · obtain ⟨s'', hs'', rfl⟩ := Option.map_eq_some_iff.mp h
      exact .inr ⟨by simpa using hf, s'', hs'', rfl⟩

theorem ready_not_done {b : Builder} {done : Nat → Bool} {v : Nat} (h : ready b done v = true) :
    done v = false := by
  simp only [ready, Bool.and_eq_true, Bool.not_eq_true'] at h
  exact h.1

theorem ready_pred {b : Builder} {done : Nat → Bool} {u v : Nat} (h : ready b done v = true)
    (he : (.node u, .node v) ∈ b.edges) : done u = true := by
  simp only [ready, Bool.and_eq_true, List.all_eq_true] at h
  simpa using h.2 _ he

/-- The invariant of a run, for `value t r`, what rank `t` contributes to rank `r`'s result:
what has run is closed under the graph's edges; `freed` is the free node having run; no use after
free; every send buffer still holds its contribution, and so does every message; a slice holds
the peer's contribution once its receive ran; and `recvbuf` holds the rank's own contribution
combined with those of the peers whose reduce ran. -/
structure Direct.Inv (D : Direct) (value : Nat → Nat → α) (s : State α) : Prop where
  closed : ∀ r < D.nranks, ∀ u v, (.node u, .node v) ∈ (D.graphs r).edges →
    s.done r v = true → s.done r u = true
  freed_eq : ∀ r < D.nranks, s.freed r = s.done r 0
  no_fault : s.fault = false
  sendbuf : ∀ r < D.nranks, ∀ j, j + 1 < D.nranks →
    s.mem r (D.send_buf r (peer D.nranks r j)) = value r (peer D.nranks r j)
  inflight : ∀ m ∈ s.inflight, ∃ t : Nat, m.2.1 = t ∧ m.2.2 = value m.1 t
  slot : ∀ r < D.nranks, ∀ j, j + 1 < D.nranks → s.done r (3 * j + 2) = true →
    s.mem r (.tmp (D.p0 r + j)) = value (peer D.nranks r j) r
  acc : ∀ r < D.nranks, ((s.mem r (D.recvbuf r) : α) : WithOne α) = (value r r : WithOne α) *
    ∏ j ∈ (Finset.range (D.nranks - 1)).filter (fun j => s.done r (3 * j + 3) = true),
      (value (peer D.nranks r j) r : WithOne α)

/-- Before `graph_start` the invariant holds when every send buffer and `recvbuf` hold the
contributions. -/
theorem Direct.init_inv (D : Direct) {value : Nat → Nat → α} {mem : Nat → Loc → α}
    (hsend : ∀ r < D.nranks, ∀ j, j + 1 < D.nranks →
      mem r (D.send_buf r (peer D.nranks r j)) = value r (peer D.nranks r j))
    (hrecv : ∀ r < D.nranks, mem r (D.recvbuf r) = value r r) :
    D.Inv value (init mem) where
  closed _ _ _ _ _ h := by simp [init] at h
  freed_eq _ _ := rfl
  no_fault := rfl
  sendbuf := hsend
  inflight _ h := by simp [init] at h
  slot _ _ _ _ h := by simp [init] at h
  acc r hr := by simp [init, hrecv r hr]

theorem exec_op_send {s s' : State α} {r : Nat} {t : Int} {buf : Loc}
    (h : exec_op r s (.send t buf) = some s') :
    s' = { s with inflight := s.inflight ++ [(r, t, s.mem r buf)] } := by
  simp only [exec_op, Option.some.injEq] at h
  exact h.symm

theorem exec_op_recv {s s' : State α} {r : Nat} {t : Int} {buf : Loc}
    (h : exec_op r s (.recv t buf) = some s') :
    ∃ m ∈ s.inflight, (m.1 : Int) = t ∧ m.2.1 = r ∧
      s' = { s with
        mem := Function.update s.mem r (Function.update (s.mem r) buf m.2.2)
        inflight := s.inflight.eraseP fun m => (m.1 : Int) = t ∧ m.2.1 = (r : Int) } := by
  simp only [exec_op] at h
  split at h
  · rename_i m hm
    obtain ⟨hmem, hp⟩ := List.find?_eq_some_iff_append.mp hm |>.imp_left id |> fun h =>
      (⟨List.mem_of_find?_eq_some hm, List.find?_some hm⟩ : m ∈ s.inflight ∧ _)
    simp only [decide_eq_true_eq] at hp
    exact ⟨m, hmem, hp.1, hp.2, (Option.some.inj h).symm⟩
  · cases h

theorem exec_op_reduce {s s' : State α} {r : Nat} {tmp_buffer recvbuf : Loc}
    (h : exec_op r s (.reduce tmp_buffer recvbuf) = some s') :
    s' = { s with
      mem := Function.update s.mem r
        (Function.update (s.mem r) recvbuf (s.mem r tmp_buffer * s.mem r recvbuf)) } := by
  simp only [exec_op, Option.some.injEq] at h
  exact h.symm

theorem exec_op_free {s s' : State α} {r : Nat} (h : exec_op r s .free = some s') :
    s' = { s with freed := Function.update s.freed r true } := by
  simp only [exec_op, Option.some.injEq] at h
  exact h.symm

variable {D : Direct} {value : Nat → Nat → α} {s : State α}

theorem Direct.graphs_built (hl : D.BufferLayout) (r : Nat) :
    Built D.nranks r (D.send_buf r) D.send_next (D.recvbuf r) (D.p0 r) (D.nranks - 1)
        (D.graphs r) ∧ (.node (3 * (D.nranks - 1)), .node 0) ∈ (D.graphs r).edges :=
  build_graph_direct_built _ _ _ _ _ _ hl.two_le

/-- Once a rank has freed `tmp_buffer`, all its receives and reduces have run: the free node
follows the last reduce, and each reduce its receive and the reduce before it. -/
theorem Direct.Inv.done_of_freed (hi : D.Inv value s) (hl : D.BufferLayout) {r : Nat}
    (hr : r < D.nranks) (h0 : s.done r 0 = true) {j : Nat} (hj : j + 1 < D.nranks) :
    s.done r (3 * j + 2) = true ∧ s.done r (3 * j + 3) = true := by
  obtain ⟨hb, hlast⟩ := D.graphs_built hl r
  have hred : ∀ d j, j + 1 + d = D.nranks - 1 → s.done r (3 * j + 3) = true := by
    intro d
    induction d with
    | zero =>
      intro j hj
      have := hi.closed r hr _ _ hlast h0
      rwa [show 3 * (D.nranks - 1) = 3 * j + 3 by omega] at this
    | succ d ih =>
      intro j hj
      have hnext := ih (j + 1) (by omega)
      exact hi.closed r hr _ _ (hb.chain j (by omega)) (by rwa [show 3 * j + 6 = 3 * (j + 1) + 3 by omega])
  have h3 := hred (D.nranks - 2 - j) j (by omega)
  exact ⟨hi.closed r hr _ _ (hb.recv_reduce j (by omega)) h3, h3⟩

/-- A node of a rank's graph, with its peer as a rank: the free node, or iteration `j`'s send,
receive or reduce. -/
theorem Direct.graphs_cases (hl : D.BufferLayout) {r v : Nat} {op : NodeOp} (hr : r < D.nranks)
    (h : (D.graphs r).nodes[v]? = some op) :
    (v = 0 ∧ op = .free) ∨ ∃ j, j + 1 < D.nranks ∧
      ((v = 3 * j + 1 ∧ op = .send (peer D.nranks r j) (D.send_buf r (peer D.nranks r j))) ∨
        (v = 3 * j + 2 ∧ op = .recv (peer D.nranks r j) (.tmp (D.p0 r + j))) ∨
        (v = 3 * j + 3 ∧ op = .reduce (.tmp (D.p0 r + j)) (D.recvbuf r))) := by
  rcases (D.graphs_built hl r).1.getElem?_cases h with h0 | ⟨j, hj, hcase⟩
  · exact .inl h0
  · rw [target_of_succ hl.le_pow hr (by omega)] at hcase
    exact .inr ⟨j, by omega, hcase⟩

/-- **No use after free.** A node that touches `tmp_buffer` never runs after the free node: the
sends that read it, the receives and the reduces all precede it. -/
theorem Direct.Inv.touches_ok (hi : D.Inv value s) (hl : D.BufferLayout) {r v : Nat} {op : NodeOp}
    (hr : r < D.nranks) (hready : ready (D.graphs r) (s.done r) v = true)
    (hop : (D.graphs r).nodes[v]? = some op) : (s.freed r && op.touches_tmp) = false := by
  rw [hi.freed_eq r hr]
  cases h0 : s.done r 0
  · rfl
  have hnot := ready_not_done hready
  rcases D.graphs_cases hl hr hop with ⟨rfl, rfl⟩ | ⟨j, hj, ⟨rfl, rfl⟩ | ⟨rfl, rfl⟩ | ⟨rfl, rfl⟩⟩
  · rw [h0] at hnot
    cases hnot
  · cases htmp : (D.send_buf r (peer D.nranks r j)).is_tmp
    · simp [NodeOp.touches_tmp, htmp]
    · have hedge := (D.graphs_built hl r).1.send_next j (by omega)
      rw [hl.send_tmp r _ htmp] at hedge
      rw [hi.closed r hr _ _ hedge h0] at hnot
      cases hnot
  · rw [(hi.done_of_freed hl hr h0 hj).1] at hnot
    cases hnot
  · rw [(hi.done_of_freed hl hr h0 hj).2] at hnot
    cases hnot

/-- Marking the node that ran keeps what has run closed under the edges: its predecessors had. -/
theorem Direct.Inv.closed_mark (hi : D.Inv value s) {s'' : State α} (hdone : s''.done = s.done)
    {r v : Nat} (hready : ready (D.graphs r) (s.done r) v = true) :
    ∀ r' < D.nranks, ∀ u w, (.node u, .node w) ∈ (D.graphs r').edges →
      (s''.mark r v).done r' w = true → (s''.mark r v).done r' u = true := by
  intro r' hr' u w he hw
  rw [mark_done, hdone] at hw ⊢
  by_cases hrv : r' = r ∧ w = v
  · obtain ⟨rfl, rfl⟩ := hrv
    simp [ready_pred hready he]
  · simp only [hrv, decide_false, Bool.false_or] at hw
    simp [hi.closed r' hr' u w he hw]

/-- A send puts on the network the contribution its buffer holds. -/
theorem Direct.Inv.of_send (hi : D.Inv value s) {r j : Nat} (hr : r < D.nranks)
    (hj : j + 1 < D.nranks) (hready : ready (D.graphs r) (s.done r) (3 * j + 1) = true) :
    D.Inv value (State.mark { s with inflight := s.inflight ++
      [(r, (peer D.nranks r j : Int), s.mem r (D.send_buf r (peer D.nranks r j)))] } r (3 * j + 1)) where
  closed := hi.closed_mark rfl hready
  freed_eq r' hr' := by
    have h0 : (0 : Nat) ≠ 3 * j + 1 := by omega
    rw [mark_freed, mark_done_of_ne _ _ _ h0]
    exact hi.freed_eq r' hr'
  no_fault := hi.no_fault
  sendbuf := hi.sendbuf
  inflight m hm := by
    simp only [mark_inflight, List.mem_append, List.mem_singleton] at hm
    rcases hm with hm | rfl
    · exact hi.inflight m hm
    · exact ⟨_, rfl, hi.sendbuf r hr j hj⟩
  slot r' hr' j' hj' hd := by
    have hne : 3 * j' + 2 ≠ 3 * j + 1 := by omega
    rw [mark_done_of_ne _ _ _ hne] at hd
    exact hi.slot r' hr' j' hj' hd
  acc r' hr' := by
    have hne : ∀ j', 3 * j' + 3 ≠ 3 * j + 1 := fun j' => by omega
    rw [mark_mem, filter_mark_of_ne _ _ _ hne]
    exact hi.acc r' hr'

/-- A receive takes its peer's message, which carries the peer's contribution, into its slice. -/
theorem Direct.Inv.of_recv (hi : D.Inv value s) (hl : D.BufferLayout) {r j : Nat}
    (hr : r < D.nranks) (hj : j + 1 < D.nranks)
    (hready : ready (D.graphs r) (s.done r) (3 * j + 2) = true) {m : Nat × Int × α}
    (hm : m ∈ s.inflight) (hsrc : (m.1 : Int) = peer D.nranks r j) (hdst : m.2.1 = r)
    {inflight' : List (Nat × Int × α)} (hsub : ∀ x ∈ inflight', x ∈ s.inflight) :
    D.Inv value (State.mark { s with
      mem := Function.update s.mem r (Function.update (s.mem r) (.tmp (D.p0 r + j)) m.2.2)
      inflight := inflight' } r (3 * j + 2)) where
  closed := hi.closed_mark rfl hready
  freed_eq r' hr' := by
    have h0 : (0 : Nat) ≠ 3 * j + 2 := by omega
    rw [mark_freed, mark_done_of_ne _ _ _ h0]
    exact hi.freed_eq r' hr'
  no_fault := hi.no_fault
  sendbuf r' hr' j' hj' := by
    have hne : ¬(r' = r ∧ D.send_buf r' (peer D.nranks r' j') = .tmp (D.p0 r + j)) := by
      rintro ⟨rfl, h⟩
      exact hl.send_ne_slot r' _ j h
    dsimp only [mark_mem]
    rw [update_update_apply, if_neg hne]
    exact hi.sendbuf r' hr' j' hj'
  inflight x hx := hi.inflight x (hsub x hx)
  slot r' hr' j' hj' hd := by
    dsimp only [mark_mem]
    rw [update_update_apply]
    by_cases hjj : r' = r ∧ j' = j
    · -- the slice just received into holds the peer's message
      obtain ⟨rfl, rfl⟩ := hjj
      obtain ⟨t, ht, hval⟩ := hi.inflight m hm
      have htr : t = r' := by exact_mod_cast ht.symm.trans hdst
      have hsrc' : m.1 = peer D.nranks r' j' := by exact_mod_cast hsrc
      rw [if_pos ⟨rfl, rfl⟩, hval, htr, hsrc']
    · have hne : ¬(r' = r ∧ Loc.tmp (D.p0 r' + j') = .tmp (D.p0 r + j)) := by
        rintro ⟨rfl, h⟩
        exact hjj ⟨rfl, by simpa using h⟩
      rw [if_neg hne]
      rw [mark_done] at hd
      have hd' : s.done r' (3 * j' + 2) = true := by
        by_cases hr' : r' = r
        · subst hr'
          have : j' ≠ j := fun h => hjj ⟨rfl, h⟩
          simpa [this] using hd
        · simpa [hr'] using hd
      exact hi.slot r' hr' j' hj' hd'
  acc r' hr' := by
    have hne : ∀ j', 3 * j' + 3 ≠ 3 * j + 2 := fun j' => by omega
    have hrb : ¬(r' = r ∧ D.recvbuf r' = .tmp (D.p0 r + j)) := by
      rintro ⟨-, h⟩
      have := hl.recvbuf_not_tmp r'
      rw [h] at this
      cases this
    rw [filter_mark_of_ne _ _ _ hne]
    dsimp only [mark_mem]
    rw [update_update_apply, if_neg hrb]
    exact hi.acc r' hr'

/-- A reduce combines the received slice into `recvbuf`: the peer's contribution joins the
product. -/
theorem Direct.Inv.of_reduce (hi : D.Inv value s) (hl : D.BufferLayout) {r j : Nat}
    (hr : r < D.nranks) (hj : j + 1 < D.nranks)
    (hready : ready (D.graphs r) (s.done r) (3 * j + 3) = true) :
    D.Inv value (State.mark { s with
      mem := Function.update s.mem r (Function.update (s.mem r) (D.recvbuf r)
        (s.mem r (.tmp (D.p0 r + j)) * s.mem r (D.recvbuf r))) } r (3 * j + 3)) where
  closed := hi.closed_mark rfl hready
  freed_eq r' hr' := by
    have h0 : (0 : Nat) ≠ 3 * j + 3 := by omega
    rw [mark_freed, mark_done_of_ne _ _ _ h0]
    exact hi.freed_eq r' hr'
  no_fault := hi.no_fault
  sendbuf r' hr' j' hj' := by
    have hne : ¬(r' = r ∧ D.send_buf r' (peer D.nranks r' j') = D.recvbuf r) := by
      rintro ⟨rfl, h⟩
      exact hl.send_ne_recvbuf r' hr' j' hj' h
    dsimp only [mark_mem]
    rw [update_update_apply, if_neg hne]
    exact hi.sendbuf r' hr' j' hj'
  inflight := hi.inflight
  slot r' hr' j' hj' hd := by
    have hne : 3 * j' + 2 ≠ 3 * j + 3 := by omega
    have hrb : ¬(r' = r ∧ Loc.tmp (D.p0 r' + j') = D.recvbuf r) := by
      rintro ⟨-, h⟩
      have := hl.recvbuf_not_tmp r
      rw [← h] at this
      cases this
    rw [mark_done_of_ne _ _ _ hne] at hd
    dsimp only [mark_mem]
    rw [update_update_apply, if_neg hrb]
    exact hi.slot r' hr' j' hj' hd
  acc r' hr' := by
    by_cases hrr : r' = r
    · subst hrr
      have hnot : j ∉ (Finset.range (D.nranks - 1)).filter
          (fun j => s.done r' (3 * j + 3) = true) := by
        simp [ready_not_done hready]
      have hrecv := hi.slot r' hr' j hj
        (ready_pred hready ((D.graphs_built hl r').1.recv_reduce j (by omega)))
      rw [filter_mark_reduce r' (show j < D.nranks - 1 by omega)]
      dsimp only [mark_mem]
      rw [update_update_apply, if_pos ⟨rfl, rfl⟩, Finset.prod_insert hnot, WithOne.coe_mul, hrecv,
        hi.acc r' hr', mul_left_comm]
    · have hne : ¬(r' = r ∧ D.recvbuf r' = D.recvbuf r) := fun h => hrr h.1
      have hfilter : ∀ x : State α, (Finset.range (D.nranks - 1)).filter
          (fun j' => (x.mark r (3 * j + 3)).done r' (3 * j' + 3) = true) =
          (Finset.range (D.nranks - 1)).filter (fun j => x.done r' (3 * j + 3) = true) :=
        fun x => Finset.filter_congr fun j' _ => by rw [mark_done_of_rank_ne _ _ _ hrr]
      rw [hfilter]
      dsimp only [mark_mem]
      rw [update_update_apply, if_neg hne]
      exact hi.acc r' hr'

theorem Direct.Inv.of_free (hi : D.Inv value s) {r : Nat}
    (hready : ready (D.graphs r) (s.done r) 0 = true) :
    D.Inv value (State.mark { s with freed := Function.update s.freed r true } r 0) where
  closed := hi.closed_mark rfl hready
  freed_eq r' hr' := by
    rw [mark_freed, mark_done]
    dsimp only
    by_cases h : r' = r
    · subst h
      simp
    · simp [h, hi.freed_eq r' hr']
  no_fault := hi.no_fault
  sendbuf := hi.sendbuf
  inflight := hi.inflight
  slot r' hr' j' hj' hd := by
    rw [mark_done_of_ne _ _ _ (show 3 * j' + 2 ≠ 0 by omega)] at hd
    exact hi.slot r' hr' j' hj' hd
  acc r' hr' := by
    rw [filter_mark_of_ne _ _ _ fun j' => show 3 * j' + 3 ≠ 0 by omega]
    exact hi.acc r' hr'

/-- **Each step keeps the invariant**: the free node and every iteration's send, receive and
reduce, on any rank, in any interleaving. -/
theorem Direct.Inv.of_step (hi : D.Inv value s) (hl : D.BufferLayout) {a : Nat × Nat}
    {s' : State α} (h : step D.nranks D.graphs s a = some s') : D.Inv value s' := by
  obtain ⟨r, v⟩ := a
  obtain ⟨hr, hready, op, hop, hbranch⟩ := step_eq_some h
  rcases hbranch with ⟨hf, -⟩ | ⟨-, s'', hexec, rfl⟩
  · rw [hi.touches_ok hl hr hready hop] at hf
    cases hf
  rcases D.graphs_cases hl hr hop with ⟨rfl, rfl⟩ | ⟨j, hj, ⟨rfl, rfl⟩ | ⟨rfl, rfl⟩ | ⟨rfl, rfl⟩⟩
  · rw [exec_op_free hexec]
    exact hi.of_free hready
  · rw [exec_op_send hexec]
    exact hi.of_send hr hj hready
  · obtain ⟨m, hm, hsrc, hdst, rfl⟩ := exec_op_recv hexec
    exact hi.of_recv hl hr hj hready hm hsrc hdst fun x hx => List.mem_of_mem_eraseP hx
  · rw [exec_op_reduce hexec]
    exact hi.of_reduce hl hr hj hready

theorem Direct.reachable_inv (hl : D.BufferLayout) {mem : Nat → Loc → α}
    (hsend : ∀ r < D.nranks, ∀ j, j + 1 < D.nranks →
      mem r (D.send_buf r (peer D.nranks r j)) = value r (peer D.nranks r j))
    (hrecv : ∀ r < D.nranks, mem r (D.recvbuf r) = value r r)
    (hs : Reachable D.nranks D.graphs mem s) : D.Inv value s :=
  Machine.Reachable.induction_inv (fun _ h => h ▸ D.init_inv hsend hrecv)
    (fun _ _ hi ⟨_, ha⟩ => hi.of_step hl ha) hs

end Run

/-- Every other rank is the peer of exactly one iteration. -/
theorem exists_peer {nranks rank t : Nat} (hr : rank < nranks) (ht : t < nranks) (hne : t ≠ rank) :
    ∃ j, j + 1 < nranks ∧ peer nranks rank j = t := by
  rcases Nat.lt_or_gt_of_ne hne with hlt | hgt
  · refine ⟨t + nranks - rank - 1, by omega, ?_⟩
    unfold peer
    rw [show t + nranks - rank - 1 + 1 + rank = t + nranks by omega, Nat.add_mod_right,
      Nat.mod_eq_of_lt ht]
  · refine ⟨t - rank - 1, by omega, ?_⟩
    unfold peer
    rw [show t - rank - 1 + 1 + rank = t by omega, Nat.mod_eq_of_lt ht]

/-- The contributions of the peers and of the rank itself are those of all ranks. -/
theorem prod_peers {M : Type} [CommMonoid M] {nranks rank : Nat} (hn : 2 ≤ nranks)
    (hr : rank < nranks) (f : Nat → M) :
    f rank * ∏ j ∈ Finset.range (nranks - 1), f (peer nranks rank j) =
      ∏ t ∈ Finset.range nranks, f t := by
  rw [← Finset.mul_prod_erase _ f (Finset.mem_range.mpr hr)]
  congr 1
  refine Finset.prod_nbij (peer nranks rank) ?_ ?_ ?_ fun _ _ => rfl
  · intro j hj
    rw [Finset.mem_range] at hj
    exact Finset.mem_erase.mpr ⟨peer_ne hr (by omega), Finset.mem_range.mpr (peer_lt (by omega) j)⟩
  · intro j hj j' hj' h
    exact peer_inj hr (by simp at hj; omega) (by simp at hj'; omega) h
  · intro t ht
    obtain ⟨hne, ht⟩ := Finset.mem_erase.mp ht
    obtain ⟨j, hj, rfl⟩ := exists_peer hr (Finset.mem_range.mp ht) hne
    exact ⟨j, by simp; omega, rfl⟩

section Shape

variable {D : Direct}

theorem Direct.graphs_iteration (hl : D.BufferLayout) (r : Nat) {j m : Nat}
    (hj : j + 1 < D.nranks) (hm : m < 3) :
    (D.graphs r).nodes[3 * j + 1 + m]? =
      (iteration D.nranks r (D.send_buf r) (D.recvbuf r) (D.p0 r) j)[m]? := by
  rw [(D.graphs_built hl r).1.nodes_eq]
  exact getElem?_iterations (by omega) hm

theorem Direct.graphs_send (hl : D.BufferLayout) {r j : Nat} (hr : r < D.nranks)
    (hj : j + 1 < D.nranks) :
    (D.graphs r).nodes[3 * j + 1]? =
      some (.send (peer D.nranks r j) (D.send_buf r (peer D.nranks r j))) := by
  have h := D.graphs_iteration hl r hj (show 0 < 3 by omega)
  simpa [iteration, target_of_succ hl.le_pow hr hj] using h

theorem Direct.graphs_recv (hl : D.BufferLayout) {r j : Nat} (hr : r < D.nranks)
    (hj : j + 1 < D.nranks) :
    (D.graphs r).nodes[3 * j + 2]? = some (.recv (peer D.nranks r j) (.tmp (D.p0 r + j))) := by
  have h := D.graphs_iteration hl r hj (show 1 < 3 by omega)
  simpa [iteration, target_of_succ hl.le_pow hr hj] using h

/-- **One message each way per pair.** Rank `r` sends to and receives from each other rank in
one iteration, the one whose peer that rank is. -/
theorem Direct.exchanges (hl : D.BufferLayout) {r : Nat} (hr : r < D.nranks) :
    Exchanges D.nranks r (D.graphs r) := by
  refine ⟨fun t ht hne => ?_, fun v t buf h => ?_⟩
  · obtain ⟨j, hj, rfl⟩ := exists_peer hr ht hne
    constructor
    · refine ⟨3 * j + 1, ⟨_, D.graphs_send hl hr hj⟩, fun v ⟨buf, hv⟩ => ?_⟩
      rcases D.graphs_cases hl hr hv with ⟨-, h⟩ | ⟨j', hj', ⟨rfl, h⟩ | ⟨-, h⟩ | ⟨-, h⟩⟩ <;>
        simp at h
      rw [peer_inj hr hj' hj (by exact_mod_cast h.1.symm)]
    · refine ⟨3 * j + 2, ⟨_, D.graphs_recv hl hr hj⟩, fun v ⟨buf, hv⟩ => ?_⟩
      rcases D.graphs_cases hl hr hv with ⟨-, h⟩ | ⟨j', hj', ⟨-, h⟩ | ⟨rfl, h⟩ | ⟨-, h⟩⟩ <;>
        simp at h
      rw [peer_inj hr hj' hj (by exact_mod_cast h.1.symm)]
  · -- every peer is the rank some iteration names
    rcases h with h | h <;>
    rcases D.graphs_cases hl hr h with ⟨-, h⟩ | ⟨j, hj, ⟨-, h⟩ | ⟨-, h⟩ | ⟨-, h⟩⟩ <;> simp at h
    all_goals exact ⟨_, peer_lt (by omega) j, h.1, peer_ne hr hj⟩

/-- **Each receive has its own slice.** Iteration `j` receives into slice `p0 + j`. -/
theorem Direct.distinct_slices (hl : D.BufferLayout) {r : Nat} (hr : r < D.nranks) :
    DistinctSlices (D.graphs r) (D.p0 r) (D.p0 r + (D.nranks - 1)) := by
  refine ⟨fun v t buf h => ?_, fun v v' t t' k h h' => ?_⟩
  · rcases D.graphs_cases hl hr h with ⟨-, h⟩ | ⟨j, hj, ⟨-, h⟩ | ⟨-, h⟩ | ⟨-, h⟩⟩ <;> simp at h
    exact ⟨_, h.2, by omega, by omega⟩
  · -- both receives are iteration `j`'s, which writes slice `p0 + j`
    rcases D.graphs_cases hl hr h with ⟨-, hop⟩ | ⟨j, hj, ⟨-, hop⟩ | ⟨rfl, hop⟩ | ⟨-, hop⟩⟩ <;>
      cases hop
    rcases D.graphs_cases hl hr h' with ⟨-, hop⟩ | ⟨j', hj', ⟨-, hop⟩ | ⟨rfl, hop⟩ | ⟨-, hop⟩⟩
    · cases hop
    · cases hop
    · have := Loc.tmp.inj (NodeOp.recv.inj hop).2
      omega
    · cases hop

end Shape

section Result

variable {α : Type} [CommSemigroup α] {D : Direct} {value : Nat → Nat → α} {s : State α}

variable (value) in
/-- **A direct graph reduces.** In every state of a run, no node has touched a freed
`tmp_buffer`, and a rank whose free node has run holds in `recvbuf` the contributions of all
ranks, combined. -/
theorem Direct.run_reduces (hl : D.BufferLayout) {mem : Nat → Loc → α}
    (hsend : ∀ r < D.nranks, ∀ j, j + 1 < D.nranks →
      mem r (D.send_buf r (peer D.nranks r j)) = value r (peer D.nranks r j))
    (hrecv : ∀ r < D.nranks, mem r (D.recvbuf r) = value r r)
    (hs : Reachable D.nranks D.graphs mem s) :
    s.fault = false ∧ ∀ r < D.nranks, s.done r 0 = true →
      ((s.mem r (D.recvbuf r) : α) : WithOne α) =
        ∏ t ∈ Finset.range D.nranks, (value t r : WithOne α) := by
  have hi := D.reachable_inv hl hsend hrecv hs
  refine ⟨hi.no_fault, fun r hr h0 => ?_⟩
  have hall : (Finset.range (D.nranks - 1)).filter (fun j => s.done r (3 * j + 3) = true) =
      Finset.range (D.nranks - 1) :=
    Finset.filter_true_of_mem fun j hj =>
      (hi.done_of_freed hl hr h0 (by simp at hj; omega)).2
  rw [hi.acc r hr, hall, prod_peers hl.two_le hr fun t => (value t r : WithOne α)]

end Result

/-! ### allreduce and reduce_scatter -/

/-- allreduce's parameters on each rank, in place or not. -/
def allreduce_direct (nranks : Nat) (in_place : Nat → Bool) : Direct where
  nranks := nranks
  send_buf r _ := if in_place r then .tmp 0 else .sendbuf 0
  send_next := .node 0
  recvbuf r := if in_place r then .sendbuf 0 else .recvbuf
  p0 r := if in_place r then 1 else 0

/-- reduce_scatter's parameters on each rank, in place or not. -/
def reduce_scatter_direct (nranks : Nat) (in_place : Nat → Bool) : Direct where
  nranks := nranks
  send_buf _ t := .sendbuf t
  send_next := .GRAPH_END
  recvbuf r := if in_place r then .sendbuf r else .recvbuf
  p0 _ := 0

section Instances

variable {nranks : Nat} {in_place : Nat → Bool}

theorem allreduce_direct_layout (hn : 2 ≤ nranks) (hn' : nranks ≤ 2 ^ 30) :
    (allreduce_direct nranks in_place).BufferLayout where
  two_le := hn
  le_pow := hn'
  send_ne_slot r _ j := by
    simp only [allreduce_direct]
    split
    · simp only [ne_eq, Loc.tmp.injEq]
      omega
    · simp
  send_ne_recvbuf r _ j _ := by
    simp only [allreduce_direct]
    split <;> simp
  recvbuf_not_tmp r := by
    simp only [allreduce_direct]
    split <;> rfl
  send_tmp _ _ _ := rfl

theorem reduce_scatter_direct_layout (hn : 2 ≤ nranks) (hn' : nranks ≤ 2 ^ 30) :
    (reduce_scatter_direct nranks in_place).BufferLayout where
  two_le := hn
  le_pow := hn'
  send_ne_slot _ _ _ := by simp [reduce_scatter_direct]
  send_ne_recvbuf r hr j hj := by
    have hne : peer nranks r j ≠ r := peer_ne hr hj
    simp only [reduce_scatter_direct]
    split <;> simp [hne]
  recvbuf_not_tmp r := by
    simp only [reduce_scatter_direct]
    split <;> rfl
  send_tmp _ _ h := by simp [reduce_scatter_direct, Loc.is_tmp] at h

end Instances

/-- **The direct allreduce and reduce_scatter compute the reduction.** For `2 ≤ n ≤ 2^30` ranks,
each in place or not: each rank's graph sends to and receives from every other rank exactly once;
every receive has its own slice of `tmp_buffer`, past the first one in an in-place allreduce,
whose sends read the copy of `sendbuf` there; and in every interleaving of the ranks' graphs no
node touches a freed `tmp_buffer`, and once a rank's free node has run, its `recvbuf` holds the
combination of all ranks' contributions: the whole `sendbuf` for allreduce, chunk `r` of every
`sendbuf` on rank `r` for reduce_scatter. -/
theorem direct_collectives_reduce {α : Type} [CommSemigroup α] {nranks : Nat} (hn : 2 ≤ nranks)
    (hn' : nranks ≤ 2 ^ 30) (in_place : Nat → Bool) (mem : Nat → Loc → α) :
    (∀ r < nranks, Exchanges nranks r (allreduce_build_graph_direct nranks r (in_place r)) ∧
      DistinctSlices (allreduce_build_graph_direct nranks r (in_place r))
        (if in_place r then 1 else 0) (allreduce_tmp_slices nranks (in_place r))) ∧
    (∀ s, Reachable nranks (fun r => allreduce_build_graph_direct nranks r (in_place r))
        (fun r => allreduce_prepare (in_place r) (mem r)) s →
      s.fault = false ∧ ∀ r < nranks, s.done r 0 = true →
        ((s.mem r (if in_place r then .sendbuf 0 else .recvbuf) : α) : WithOne α) =
          ∏ t ∈ Finset.range nranks, ((mem t (.sendbuf 0) : α) : WithOne α)) ∧
    (∀ r < nranks, Exchanges nranks r (reduce_scatter_build_graph_direct nranks r (in_place r)) ∧
      DistinctSlices (reduce_scatter_build_graph_direct nranks r (in_place r)) 0
        (reduce_scatter_tmp_slices nranks)) ∧
    (∀ s, Reachable nranks (fun r => reduce_scatter_build_graph_direct nranks r (in_place r))
        (fun r => reduce_scatter_prepare r (in_place r) (mem r)) s →
      s.fault = false ∧ ∀ r < nranks, s.done r 0 = true →
        ((s.mem r (if in_place r then .sendbuf r else .recvbuf) : α) : WithOne α) =
          ∏ t ∈ Finset.range nranks, ((mem t (.sendbuf r) : α) : WithOne α)) := by
  have har : (allreduce_direct nranks in_place).BufferLayout := allreduce_direct_layout hn hn'
  have hrs : (reduce_scatter_direct nranks in_place).BufferLayout :=
    reduce_scatter_direct_layout hn hn'
  refine ⟨fun r hr => ⟨Direct.exchanges har hr, ?_⟩, fun s hs => ?_,
    fun r hr => ⟨Direct.exchanges hrs hr, ?_⟩, fun s hs => ?_⟩
  · have h := Direct.distinct_slices har hr
    have hhi : (allreduce_direct nranks in_place).p0 r +
        ((allreduce_direct nranks in_place).nranks - 1) = allreduce_tmp_slices nranks (in_place r) := by
      simp only [allreduce_direct, allreduce_tmp_slices]
      split <;> omega
    rw [hhi] at h
    exact h
  · refine Direct.run_reduces (fun t _ => mem t (.sendbuf 0)) har (fun r _ j _ => ?_)
      (fun r _ => ?_) hs
    · simp only [allreduce_direct, allreduce_prepare]
      split <;> simp
    · simp only [allreduce_direct, allreduce_prepare]
      split <;> simp
  · have h := Direct.distinct_slices hrs hr
    rw [show (reduce_scatter_direct nranks in_place).p0 r +
      ((reduce_scatter_direct nranks in_place).nranks - 1) = reduce_scatter_tmp_slices nranks from
      Nat.zero_add _] at h
    exact h
  · refine Direct.run_reduces (fun t r => mem t (.sendbuf r)) hrs (fun r _ j _ => ?_)
      (fun r _ => ?_) hs
    · simp only [reduce_scatter_direct, reduce_scatter_prepare]
      split <;> simp
    · simp only [reduce_scatter_direct, reduce_scatter_prepare]
      split <;> simp

/-- Three ranks post both their sends, then each in turn receives and reduces both messages and
frees its `tmp_buffer`: every node of every rank's graph runs. -/
def three_rank_run : List (Nat × Nat) :=
  [(0, 1), (0, 4), (1, 1), (1, 4), (2, 1), (2, 4),
    (0, 2), (0, 3), (0, 5), (0, 6), (0, 0),
    (1, 2), (1, 3), (1, 5), (1, 6), (1, 0),
    (2, 2), (2, 3), (2, 5), (2, 6), (2, 0)]

theorem direct_collectives_reduce_three :
    (2 ≤ 3 ∧ 3 ≤ 2 ^ 30) ∧
      let in_place : Nat → Bool := fun r => r == 1
      let mem : Nat → Loc → Nat := fun r _ => r + 2
      (∃ s, Reachable 3 (fun r => allreduce_build_graph_direct 3 r (in_place r))
          (fun r => allreduce_prepare (in_place r) (mem r)) s ∧ s.fault = false ∧
        ∀ r < 3, s.done r 0 = true ∧ s.mem r (if in_place r then .sendbuf 0 else .recvbuf) = 24) ∧
      (∃ s, Reachable 3 (fun r => reduce_scatter_build_graph_direct 3 r (in_place r))
          (fun r => reduce_scatter_prepare r (in_place r) (mem r)) s ∧ s.fault = false ∧
        ∀ r < 3, s.done r 0 = true ∧ s.mem r (if in_place r then .sendbuf r else .recvbuf) = 24) ∧
      (∀ r < 3, Exchanges 3 r (allreduce_build_graph_direct 3 r (in_place r)) ∧
        DistinctSlices (allreduce_build_graph_direct 3 r (in_place r))
          (if in_place r then 1 else 0) (allreduce_tmp_slices 3 (in_place r))) ∧
      (∀ s, Reachable 3 (fun r => allreduce_build_graph_direct 3 r (in_place r))
          (fun r => allreduce_prepare (in_place r) (mem r)) s →
        s.fault = false ∧ ∀ r < 3, s.done r 0 = true →
          ((s.mem r (if in_place r then .sendbuf 0 else .recvbuf) : Nat) : WithOne Nat) =
            ∏ t ∈ Finset.range 3, ((mem t (.sendbuf 0) : Nat) : WithOne Nat)) ∧
      (∀ r < 3, Exchanges 3 r (reduce_scatter_build_graph_direct 3 r (in_place r)) ∧
        DistinctSlices (reduce_scatter_build_graph_direct 3 r (in_place r)) 0
          (reduce_scatter_tmp_slices 3)) ∧
      (∀ s, Reachable 3 (fun r => reduce_scatter_build_graph_direct 3 r (in_place r))
          (fun r => reduce_scatter_prepare r (in_place r) (mem r)) s →
        s.fault = false ∧ ∀ r < 3, s.done r 0 = true →
          ((s.mem r (if in_place r then .sendbuf r else .recvbuf) : Nat) : WithOne Nat) =
            ∏ t ∈ Finset.range 3, ((mem t (.sendbuf r) : Nat) : WithOne Nat)) :=
  have h0 : Reachable 3 (fun r => allreduce_build_graph_direct 3 r (r == 1))
      (fun r => allreduce_prepare (r == 1) fun _ => r + 2)
      (init fun r => allreduce_prepare (r == 1) fun _ => r + 2) := .init rfl
  have h1 : Reachable 3 (fun r => reduce_scatter_build_graph_direct 3 r (r == 1))
      (fun r => reduce_scatter_prepare r (r == 1) fun _ => r + 2)
      (init fun r => reduce_scatter_prepare r (r == 1) fun _ => r + 2) := .init rfl
  ⟨⟨by decide, by decide⟩,
    ⟨_, Machine.Reachable.of_foldlM_isSome h0 three_rank_run (by decide +kernel), by decide +kernel⟩,
    ⟨_, Machine.Reachable.of_foldlM_isSome h1 three_rank_run (by decide +kernel), by decide +kernel⟩,
    direct_collectives_reduce (by decide) (by decide) _ _⟩

/-- With `2^30 + 1` ranks `i + rank` overflows: on rank `2^30`, iteration `i = 2^30` sends to rank
`-(2^30 - 1)`, which does not exist, instead of rank `2^30 - 1`. -/
theorem allreduce_send_to_negative_rank :
    (allreduce_build_graph_direct (2 ^ 30 + 1) (2 ^ 30) false).nodes[3 * (2 ^ 30 - 1) + 1]? =
      some (.send (-(2 ^ 30 - 1)) (.sendbuf 0)) := by
  have hb := (build_graph_direct_built (2 ^ 30 + 1) (2 ^ 30) (fun _ => Loc.sendbuf 0) (.node 0)
    .recvbuf 0 (by norm_num)).1
  simp only [allreduce_build_graph_direct, Bool.false_eq_true, ↓reduceIte]
  rw [hb.nodes_eq, ← Nat.add_zero (3 * (2 ^ 30 - 1) + 1),
    getElem?_iterations (by norm_num) (by norm_num)]
  simp only [iteration, List.getElem?_cons_zero, Option.some.injEq, NodeOp.send.injEq, and_true]
  -- `2^30 + 2^30` wraps to `-2^31`, and `-2^31 % (2^30 + 1)` truncates to `-(2^30 - 1)`
  decide

end Lci.DirectGraph
