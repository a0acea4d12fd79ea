import Lci.GraphRun
import Lci.Collective

/-! The dissemination barrier `barrier_x` with `nranks ≥ 2`. Rank `rank` builds one completion
graph: round `k` receives from `rank - 2^k` and sends to `rank + 2^k` (mod `nranks`), both
triggered by the dummy node of round `k - 1` (by `GRAPH_START` in round `0`) and both feeding
the dummy node of round `k`, which in the last round is `GRAPH_END`. The loop runs in `int`: for
`nranks ≤ 2^30` it leaves after `⌈log₂ nranks⌉` rounds; beyond, `jump * 2` wraps to `-2^31` and
then to `0`, and the loop never leaves.

The ranks run their graphs (`Graph.step`) side by side; a send node's function posts a message
to its peer, and a receive node's operation completes only by matching a message from its
source. Every message carries the barrier's one sequence number, so a receive may match any
message from its source. The ghost lists `sent` and `matched` record the messages and which
receive node matched each. -/

namespace Lci.Barrier

open Lci.Graph
open Collective (wrap wrap_of_bounds)
open BinomialTree (rounds)
open Backlog (errorcode_t)

/-- What one iteration of the loop posts: the round's receive and send, and whether
`jump * 2 >= nranks` makes `GRAPH_END` its dummy node. -/
structure Round where
  rank_to_recv : Int
  rank_to_send : Int
  last : Bool
  deriving DecidableEq, Repr

/-- The iteration with `jump`, in `int`. -/
def round_of (rank nranks jump : Int) : Round where
  rank_to_recv := (wrap (wrap (rank - jump) + nranks)).tmod nranks
  rank_to_send := (wrap (rank + jump)).tmod nranks
  last := decide (nranks ≤ wrap (jump * 2))

/-- The iterations of `for (int jump = 1; jump < nranks; jump *= 2)` from `jump` on; `none` when
the loop has not left after `fuel` more tests. -/
def loop_rounds (rank nranks : Int) : Nat → Int → Option (List Round)
  | 0, _ => none
  | fuel + 1, jump =>
    if jump < nranks then
      (loop_rounds rank nranks fuel (wrap (jump * 2))).map (round_of rank nranks jump :: ·)
    else some []

/-- What a node of the barrier's graph posts when triggered. -/
inductive Op
  | recv (rank : Int)
  | send (rank : Int)
  | dummy
  deriving DecidableEq, Repr

/-- What node `u` posts: the operation `ops` holds at its number. -/
def opOf (ops : List Op) : graph_node_t → Op
  | .node i => ops.getD i .dummy
  | _ => .dummy

/-- The graph so far, the node the next round hangs from, and what each node posts. -/
structure Build where
  graph : graph_t
  old_node : graph_node_t
  ops : List Op

/-- One iteration's nodes and edges: the dummy node (unless it is `GRAPH_END`), the receive and
the send, then the four `graph_add_edge` calls. -/
def add_round (b : Build) (r : Round) : Option Build := do
  let (dummy_node, g) :=
    if r.last then (graph_node_t.GRAPH_END, b.graph) else add_node b.graph true
  let (recv_node, g) := add_node g true
  let (send_node, g) := add_node g true
  let g ← add_edge g b.old_node recv_node false
  let g ← add_edge g b.old_node send_node false
  let g ← add_edge g recv_node dummy_node false
  let g ← add_edge g send_node dummy_node false
  pure ⟨g, dummy_node,
    (if r.last then b.ops else b.ops ++ [.dummy]) ++ [.recv r.rank_to_recv, .send r.rank_to_send]⟩

/-- The graph `barrier_x` builds at `rank` of `nranks`, and what each of its nodes posts; `none`
when the loop never leaves. Thirty-two tests cover every loop that leaves. -/
def barrier_x (rank nranks : Int) (comp : Bool) : Option (graph_t × List Op) := do
  let rs ← loop_rounds rank nranks 32 1
  let b ← rs.foldlM add_round ⟨alloc_graph comp, .GRAPH_START, []⟩
  pure (b.graph, b.ops)

/-- Round `k` of `R` at rank `p` of `n`, computed in `Nat`. -/
def round_at (n p R k : Nat) : Round where
  rank_to_recv := ((p + n - 2 ^ k) % n : Nat)
  rank_to_send := ((p + 2 ^ k) % n : Nat)
  last := decide (k + 1 = R)

section Loop

theorem wrap_zero : wrap 0 = 0 := rfl

theorem loop_rounds_zero {rank nranks : Int} (h : 0 < nranks) :
    ∀ fuel, loop_rounds rank nranks fuel 0 = none
  | 0 => rfl
  | fuel + 1 => by
    rw [loop_rounds, if_pos h, Int.zero_mul, wrap_zero, loop_rounds_zero h fuel]
    rfl

/-- Beyond `2^30` ranks `jump` reaches `2^30 < nranks`, doubles to `-2^31` and then to `0`: the
loop never leaves. -/
theorem loop_rounds_hang {rank nranks : Int} (h : 2 ^ 30 < nranks) (fuel : Nat) :
    loop_rounds rank nranks fuel 1 = none := by
  have hneg : ∀ fuel, loop_rounds rank nranks fuel (-2 ^ 31) = none := by
    intro fuel
    cases fuel with
    | zero => rfl
    | succ fuel =>
      rw [loop_rounds, if_pos (by omega), show wrap (-2 ^ 31 * 2) = 0 by decide,
        loop_rounds_zero (by omega)]
      rfl
  -- the jumps `2^(30 - j)`, from `2^30` down to `1`
  have hpow : ∀ j ≤ 30, ∀ fuel, loop_rounds rank nranks fuel (2 ^ (30 - j)) = none := by
    intro j hj
    induction j with
    | zero =>
      intro fuel
      cases fuel with
      | zero => rfl
      | succ fuel =>
        rw [loop_rounds, if_pos (by omega), show wrap (2 ^ (30 - 0) * 2) = -2 ^ 31 by decide,
          hneg]
        rfl
    | succ j ih =>
      intro fuel
      cases fuel with
      | zero => rfl
      | succ fuel =>
        have hle : (2 : Int) ^ (30 - (j + 1)) ≤ 2 ^ 30 := pow_le_pow_right₀ (by norm_num) (by omega)
        have hdouble : (2 : Int) ^ (30 - (j + 1)) * 2 = 2 ^ (30 - j) := by
          rw [← pow_succ]
          congr 1
          omega
        have hle' : (2 : Int) ^ (30 - j) ≤ 2 ^ 30 := pow_le_pow_right₀ (by norm_num) (by omega)
        have hpos : (0 : Int) < 2 ^ (30 - j) := by positivity
        rw [loop_rounds, if_pos (by omega), hdouble, wrap_of_bounds (by omega) (by omega),
          ih (by omega)]
        rfl
  simpa using hpow 30 le_rfl fuel

variable {n p : Nat}

theorem round_of_eq (hn : n ≤ 2 ^ 30) (hp : p < n) {k : Nat} (hk : 2 ^ k < n) :
    round_of p n (2 ^ k) = round_at n p (rounds n) k := by
  have hlt : k < Nat.clog 2 n := (Nat.lt_clog_iff_pow_lt (by norm_num)).mpr hk
  have hk30 : 2 ^ k * 2 ≤ 2 ^ 30 := by
    have h30 : 2 ^ k < 2 ^ 30 := by omega
    rw [← pow_succ]
    exact Nat.pow_le_pow_right (by norm_num) ((Nat.pow_lt_pow_iff_right (by norm_num)).mp h30)
  have hlast : n ≤ 2 ^ k * 2 ↔ k + 1 = rounds n := by
    rw [← pow_succ, ← Nat.clog_le_iff_le_pow (by norm_num), rounds]
    omega
  simp only [round_of, round_at, Round.mk.injEq]
  have hJ' : (2 : Int) ^ k = ((2 ^ k : Nat) : Int) := by push_cast; rfl
  rw [hJ']
  generalize 2 ^ k = J at hk hk30 hlast ⊢
  have hsub : wrap ((p : Int) - J) = p - J := wrap_of_bounds (by omega) (by omega)
  refine ⟨?_, ?_, ?_⟩
  · rw [hsub, wrap_of_bounds (by omega) (by omega), Int.tmod_eq_emod_of_nonneg (by omega),
      Int.natCast_mod, Nat.cast_sub (by omega)]
    push_cast
    ring_nf
  · rw [wrap_of_bounds (by omega) (by omega), Int.tmod_eq_emod_of_nonneg (by omega),
      Int.natCast_mod]
    push_cast
    rfl
  · rw [wrap_of_bounds (by omega) (by omega)]
    simp only [decide_eq_decide]
    rw [← hlast]
    omega

/-- While no sum wraps, the loop runs the rounds `k < ⌈log₂ n⌉` with jump `2^k`. -/
theorem loop_rounds_eq (hn : n ≤ 2 ^ 30) (hp : p < n) :
    ∀ fuel k, k ≤ rounds n → rounds n - k < fuel →
      loop_rounds p n fuel (2 ^ k) =
        some ((List.range' k (rounds n - k)).map (round_at n p (rounds n)))
  | 0, _, _, h => absurd h (Nat.not_lt_zero _)
  | fuel + 1, k, hk, hfuel => by
    rw [loop_rounds]
    by_cases hlt : k < rounds n
    · have hpow : 2 ^ k < n := (Nat.lt_clog_iff_pow_lt (by norm_num)).mp hlt
      have hk30 : (2 : Int) ^ k * 2 ≤ 2 ^ 30 := by
        have h30 : 2 ^ k < 2 ^ 30 := by omega
        rw [← pow_succ]
        exact pow_le_pow_right₀ (by norm_num) ((Nat.pow_lt_pow_iff_right (by norm_num)).mp h30)
      have hpos : (0 : Int) < 2 ^ k * 2 := by positivity
      rw [if_pos (by exact_mod_cast hpow), wrap_of_bounds (by omega) (by omega), ← pow_succ, loop_rounds_eq hn hp fuel (k + 1) hlt (by omega),
        round_of_eq hn hp hpow, show rounds n - k = rounds n - (k + 1) + 1 by omega,
        List.range'_succ]
      rfl
    · have hk' : k = rounds n := by omega
      subst hk'
      have hge : n ≤ 2 ^ rounds n := Nat.le_pow_clog (by norm_num) n
      rw [if_neg (by exact_mod_cast Nat.not_lt.mpr hge)]
      simp

end Loop

/-- The out-edges of `u` that a round's four `graph_add_edge` calls add, in their order: from
`old` to the receive and the send, and from both to the dummy node `D`. -/
def linkEdges (old recv send D u : graph_node_t) : List (graph_node_t × Bool) :=
  (if old = u then [(recv, false)] else []) ++ (if old = u then [(send, false)] else []) ++
    (if recv = u then [(D, false)] else []) ++ (if send = u then [(D, false)] else [])

/-- The round's `dummy_node` when the graph has `L` nodes. -/
def Round.dummy_node (r : Round) (L : Nat) : graph_node_t :=
  if r.last then .GRAPH_END else .node L

/-- The round's `recv_node`, added after the dummy node. -/
def Round.recv_node (r : Round) (L : Nat) : graph_node_t :=
  .node (if r.last then L else L + 1)

def Round.send_node (r : Round) (L : Nat) : graph_node_t :=
  .node (if r.last then L + 1 else L + 2)

/-- What the round's nodes post, after the `ops` of the nodes there are. -/
def Round.ops_after (r : Round) (ops : List Op) : List Op :=
  (if r.last then ops else ops ++ [.dummy]) ++ [.recv r.rank_to_recv, .send r.rank_to_send]

section Build

@[simp] theorem add_node_fst (g : graph_t) (fn : Bool) :
    (add_node g fn).1 = .node g.nodes.length := rfl

/-- The four `graph_add_edge` calls of a round. -/
theorem link_spec (g : graph_t) (old recv send D : graph_node_t) (ops : List Op)
    (hwf : WellFormed g) (hold : old ∈ g.handles) (hrecv : recv ∈ g.handles)
    (hsend : send ∈ g.handles) (hr : recv ≠ .GRAPH_START) (hs : send ≠ .GRAPH_START)
    (hD : D = .GRAPH_END ∨ D ∈ g.handles) (hD' : D ≠ .GRAPH_START) :
    ∃ g', (do
        let g ← add_edge g old recv false
        let g ← add_edge g old send false
        let g ← add_edge g recv D false
        let g ← add_edge g send D false
        pure (⟨g, D, ops⟩ : Build)) = some ⟨g', D, ops⟩ ∧
      WellFormed g' ∧ g'.nodes.length = g.nodes.length ∧ g'.fn = g.fn ∧
      ∀ u, g'.out_edges u = g.out_edges u ++ linkEdges old recv send D u := by
  have hne : ∀ {x}, x ∈ g.handles → x ≠ .GRAPH_END := by
    rintro x hx rfl
    simp at hx
  obtain ⟨g1, h1⟩ : ∃ g1, add_edge g old recv false = some g1 := add_edge_eq_some (hne hold) hr
  obtain ⟨g2, h2⟩ : ∃ g2, add_edge g1 old send false = some g2 := add_edge_eq_some (hne hold) hs
  obtain ⟨g3, h3⟩ : ∃ g3, add_edge g2 recv D false = some g3 := add_edge_eq_some (hne hrecv) hD'
  obtain ⟨g4, h4⟩ : ∃ g4, add_edge g3 send D false = some g4 := add_edge_eq_some (hne hsend) hD'
  have hh1 : g1.handles = g.handles := add_edge_handles h1
  have hh2 : g2.handles = g.handles := (add_edge_handles h2).trans hh1
  have hh3 : g3.handles = g.handles := (add_edge_handles h3).trans hh2
  have hwf1 := add_edge_wellFormed hwf hold (.inr hrecv) h1
  have hwf2 := add_edge_wellFormed hwf1 (hh1 ▸ hold) (.inr (hh1 ▸ hsend)) h2
  have hwf3 := add_edge_wellFormed hwf2 (hh2 ▸ hrecv) (hh2 ▸ hD) h3
  have hwf4 := add_edge_wellFormed hwf3 (hh3 ▸ hsend) (hh3 ▸ hD) h4
  refine ⟨g4, ?_, hwf4, ?_, ?_, fun u => ?_⟩
  · simp only [h1, h2, h3, h4, Option.bind_eq_bind, Option.bind_some]
    rfl
  · rw [add_edge_nodes_length h4, add_edge_nodes_length h3, add_edge_nodes_length h2,
      add_edge_nodes_length h1]
  · rw [add_edge_fn h4, add_edge_fn h3, add_edge_fn h2, add_edge_fn h1]
  · rw [out_edges_add_edge (hh3 ▸ hsend) h4, out_edges_add_edge (hh2 ▸ hrecv) h3,
      out_edges_add_edge (hh1 ▸ hold) h2, out_edges_add_edge hold h1, linkEdges]
    simp only [List.append_assoc]

/-- Two `add_node` calls leave the first nodes' functions alone and give the new ones one. -/
theorem add_node_add_node_fn (g : graph_t) {i : Nat} (hi : i < g.nodes.length + 2) :
    (add_node (add_node g true).2 true).2.fn (.node i) =
      if i < g.nodes.length then g.fn (.node i) else true := by
  rw [add_node_fn, add_node_fn, add_node_nodes_length]
  by_cases hiL : i < g.nodes.length
  · rw [if_neg (by simp; omega), if_neg (by simp; omega), if_pos hiL]
  · rw [if_neg hiL]
    by_cases h1 : i = g.nodes.length + 1
    · rw [if_pos (by rw [h1])]
    · rw [if_neg (by simp; omega), if_pos (by simp; omega)]

/-- One round adds its dummy node (unless it is `GRAPH_END`), its receive and its send after the
`L` nodes there are, and the round's four edges. -/
theorem add_round_spec {b : Build} (r : Round) (hwf : WellFormed b.graph)
    (hold : b.old_node ∈ b.graph.handles) :
    ∃ b', add_round b r = some b' ∧ WellFormed b'.graph ∧
      b'.old_node = r.dummy_node b.graph.nodes.length ∧ b'.ops = r.ops_after b.ops ∧
      b'.graph.nodes.length = b.graph.nodes.length + (if r.last then 2 else 3) ∧
      (∀ i < b'.graph.nodes.length, b'.graph.fn (.node i) =
        if i < b.graph.nodes.length then b.graph.fn (.node i) else true) ∧
      ∀ u, b'.graph.out_edges u = b.graph.out_edges u ++
        linkEdges b.old_node (r.recv_node b.graph.nodes.length) (r.send_node b.graph.nodes.length)
          (r.dummy_node b.graph.nodes.length) u := by
  cases hl : r.last
  · -- a dummy node, then the receive and the send
    set g0 := (add_node b.graph true).2 with hg0
    have hlen0 : g0.nodes.length = b.graph.nodes.length + 1 := add_node_nodes_length _ _
    have hold0 : b.old_node ∈ g0.handles := mem_handles_add_node true hold
    obtain ⟨g', heq, hwf', hlen, hfn, hout⟩ := link_spec (add_node (add_node g0 true).2 true).2
      b.old_node (graph_node_t.node g0.nodes.length)
      (graph_node_t.node (add_node g0 true).2.nodes.length)
      (graph_node_t.node b.graph.nodes.length) (r.ops_after b.ops)
      (add_node_wellFormed (add_node_wellFormed (add_node_wellFormed hwf true) true) true)
      (mem_handles_add_node _ (mem_handles_add_node _ hold0))
      (mem_handles_add_node _ (mem_handles_add_node_self _ _)) (mem_handles_add_node_self _ _)
      (by simp) (by simp)
      (.inr (mem_handles_add_node _ (mem_handles_add_node _ (mem_handles_add_node_self _ _))))
      (by simp)
    have hi' : ∀ i < g'.nodes.length, i < g0.nodes.length + 2 := by
      intro i hi
      simp only [hlen, add_node_nodes_length] at hi
      omega
    refine ⟨⟨g', graph_node_t.node b.graph.nodes.length, r.ops_after b.ops⟩, ?_, hwf',
      by simp [Round.dummy_node, hl], rfl, by simp [hlen, hlen0], fun i hi => ?_, fun u => ?_⟩
    · simp only [add_round, hl, Bool.false_eq_true, if_false, add_node_fst, ← hg0]
      simpa only [Round.ops_after, hl, Bool.false_eq_true, if_false] using heq
    · rw [hfn, add_node_add_node_fn g0 (hi' i hi), hg0, add_node_fn]
      by_cases hiL : i < b.graph.nodes.length
      · rw [if_pos (by simp; omega), if_neg (by simp; omega), if_pos hiL]
      · rw [if_neg hiL]
        by_cases hL : i = b.graph.nodes.length
        · rw [if_pos (by simp; omega), if_pos (by rw [hL])]
        · rw [if_neg (by simp; omega)]
    · rw [hout, hg0, add_node_out_edges, add_node_out_edges, add_node_out_edges]
      simp [Round.recv_node, Round.send_node, Round.dummy_node, hl]
  · -- the last round: its dummy node is `GRAPH_END`
    obtain ⟨g', heq, hwf', hlen, hfn, hout⟩ := link_spec (add_node (add_node b.graph true).2 true).2
      b.old_node (graph_node_t.node b.graph.nodes.length)
      (graph_node_t.node (add_node b.graph true).2.nodes.length) .GRAPH_END (r.ops_after b.ops)
      (add_node_wellFormed (add_node_wellFormed hwf true) true)
      (mem_handles_add_node _ (mem_handles_add_node _ hold))
      (mem_handles_add_node _ (mem_handles_add_node_self _ _)) (mem_handles_add_node_self _ _)
      (by simp) (by simp) (.inl rfl) (by simp)
    refine ⟨⟨g', .GRAPH_END, r.ops_after b.ops⟩, ?_, hwf', by simp [Round.dummy_node, hl], rfl,
      by simp [hlen], fun i hi => ?_, fun u => ?_⟩
    · simp only [add_round, hl, if_true, add_node_fst]
      simpa only [Round.ops_after, hl, if_true] using heq
    · simp only [hlen, add_node_nodes_length] at hi
      rw [hfn, add_node_add_node_fn _ (by omega)]
    · rw [hout, add_node_out_edges, add_node_out_edges]
      simp [Round.recv_node, Round.send_node, Round.dummy_node, hl]

theorem ops_after_eq (r : Round) (ops : List Op) : r.ops_after ops = ops ++ r.ops_after [] := by
  cases hl : r.last <;> simp [Round.ops_after, hl]

theorem ops_after_length (r : Round) (ops : List Op) :
    (r.ops_after ops).length = ops.length + if r.last then 2 else 3 := by
  cases hl : r.last <;> simp [Round.ops_after, hl]

end Build

section Layout

variable (R : Nat)

/-- The dummy node of round `k` of `R`: numbered `3 * k`, or `GRAPH_END` in the last round. -/
def dummyNode (k : Nat) : graph_node_t := if k + 1 = R then .GRAPH_END else .node (3 * k)

/-- The receive node of round `k`: after the dummy node, or first in the last round. -/
def recvNode (k : Nat) : graph_node_t := .node (if k + 1 = R then 3 * k else 3 * k + 1)

def sendNode (k : Nat) : graph_node_t := .node (if k + 1 = R then 3 * k + 1 else 3 * k + 2)

/-- The node round `k` hangs from: `GRAPH_START`, then the dummy node of the round before. -/
def oldNode : Nat → graph_node_t
  | 0 => .GRAPH_START
  | k + 1 => dummyNode R k

/-- The out-edges of `u` that round `k` adds. -/
def roundEdges (k : Nat) (u : graph_node_t) : List (graph_node_t × Bool) :=
  linkEdges (oldNode R k) (recvNode R k) (sendNode R k) (dummyNode R k) u

end Layout

/-- What the nodes of round `k` of `R` post at rank `p` of `n`. -/
def roundOps (n p R k : Nat) : List Op := (round_at n p R k).ops_after []

/-- The build after the first `k` of the `R` rounds at rank `p` of `n`. -/
structure Built (n p R k : Nat) (b : Build) : Prop where
  wf : WellFormed b.graph
  old : b.old_node = oldNode R k
  ops : b.ops = (List.range k).flatMap (roundOps n p R)
  length : b.graph.nodes.length = b.ops.length
  fn : ∀ i < b.graph.nodes.length, b.graph.fn (.node i) = true
  out_edges : ∀ u, b.graph.out_edges u = (List.range k).flatMap fun j => roundEdges R j u

section Built

variable {n p R : Nat}

theorem roundOps_length (k : Nat) :
    (roundOps n p R k).length = if k + 1 = R then 2 else 3 := by
  simp [roundOps, ops_after_length, round_at]

/-- Every round before the last adds three nodes. -/
theorem length_flatMap_roundOps {k : Nat} (hk : k < R) :
    ((List.range k).flatMap (roundOps n p R)).length = 3 * k := by
  induction k with
  | zero => rfl
  | succ k ih =>
    rw [List.range_succ, List.flatMap_append, List.length_append, ih (by omega),
      List.flatMap_singleton, roundOps_length, if_neg (by omega)]
    ring

theorem round_at_nodes {k : Nat} :
    (round_at n p R k).dummy_node (3 * k) = dummyNode R k ∧
      (round_at n p R k).recv_node (3 * k) = recvNode R k ∧
      (round_at n p R k).send_node (3 * k) = sendNode R k := by
  by_cases hk : k + 1 = R <;>
    simp [Round.dummy_node, Round.recv_node, Round.send_node, round_at, dummyNode, recvNode,
      sendNode, hk]

theorem built_zero (comp : Bool) : Built n p R 0 ⟨alloc_graph comp, .GRAPH_START, []⟩ where
  wf := alloc_graph_wellFormed comp
  old := rfl
  ops := rfl
  length := rfl
  fn _ h := absurd h (Nat.not_lt_zero _)
  out_edges u := by cases u <;> rfl

/-- Round `k` extends a build of the rounds before it. -/
theorem Built.succ {k : Nat} {b : Build} (h : Built n p R k b) (hk : k < R) :
    ∃ b', add_round b (round_at n p R k) = some b' ∧ Built n p R (k + 1) b' := by
  have hL : b.graph.nodes.length = 3 * k := by rw [h.length, h.ops, length_flatMap_roundOps hk]
  have hold : b.old_node ∈ b.graph.handles := by
    rw [h.old]
    cases k with
    | zero => simp [oldNode]
    | succ j => simp [oldNode, dummyNode, if_neg (show j + 1 ≠ R by omega), hL]
  obtain ⟨b', hb', hwf, hold', hops, hlen, hfn, hout⟩ := add_round_spec (round_at n p R k) h.wf hold
  obtain ⟨hD, hrecv, hsend⟩ := round_at_nodes (n := n) (p := p) (R := R) (k := k)
  refine ⟨b', hb', ⟨hwf, ?_, ?_, ?_, fun i hi => ?_, fun u => ?_⟩⟩
  · rw [hold', hL, hD]
    rfl
  · rw [hops, ops_after_eq, h.ops, List.range_succ, List.flatMap_append, List.flatMap_singleton]
    rfl
  · rw [hlen, hops, ops_after_length, h.length]
  · rw [hfn i hi]
    split_ifs with hiL
    · exact h.fn i hiL
    · rfl
  · rw [hout, h.out_edges, hL, hD, hrecv, hsend, h.old, List.range_succ, List.flatMap_append,
      List.flatMap_singleton]
    rfl

/-- The loop's rounds build, one after the other. -/
theorem built_run (comp : Bool) {k : Nat} (hk : k ≤ R) :
    ∃ b, ((List.range k).map (round_at n p R)).foldlM add_round
      ⟨alloc_graph comp, .GRAPH_START, []⟩ = some b ∧ Built n p R k b := by
  induction k with
  | zero => exact ⟨_, rfl, built_zero comp⟩
  | succ k ih =>
    obtain ⟨b, hb, hbuilt⟩ := ih (by omega)
    obtain ⟨b', hb', hbuilt'⟩ := hbuilt.succ (by omega)
    refine ⟨b', ?_, hbuilt'⟩
    rw [List.range_succ, List.map_append, List.foldlM_append, hb, Option.bind_eq_bind,
      Option.bind_some, List.map_singleton, List.foldlM_cons, hb', Option.bind_eq_bind,
      Option.bind_some, List.foldlM_nil]
    rfl

end Built

/-- What `barrier_x` builds at rank `p` of `n`: the rounds' nodes and edges, every node with a
function, and what each posts. -/
structure Layout (n p : Nat) (g : graph_t) (ops : List Op) : Prop where
  wf : WellFormed g
  ops_eq : ops = (List.range (rounds n)).flatMap (roundOps n p (rounds n))
  length : g.nodes.length = ops.length
  fn : ∀ i < g.nodes.length, g.fn (.node i) = true
  out_edges : ∀ u, g.out_edges u = (List.range (rounds n)).flatMap fun j => roundEdges (rounds n) j u

section Barrier

variable {n p : Nat}

theorem rounds_le_thirty (hn : n ≤ 2 ^ 30) : rounds n ≤ 30 :=
  (Nat.clog_le_iff_le_pow (by norm_num)).mpr hn

theorem loop_rounds_barrier (hn : n ≤ 2 ^ 30) (hp : p < n) :
    loop_rounds p n 32 1 = some ((List.range (rounds n)).map (round_at n p (rounds n))) := by
  have h := loop_rounds_eq hn hp 32 0 (Nat.zero_le _) (by have := rounds_le_thirty hn; omega)
  rwa [pow_zero, Nat.sub_zero, ← List.range_eq_range'] at h

/-- `barrier_x` builds a graph only while no sum wraps, and then the graph of the rounds. -/
theorem barrier_x_layout (hp : p < n) {comp : Bool} {g : graph_t} {ops : List Op}
    (h : barrier_x p n comp = some (g, ops)) : n ≤ 2 ^ 30 ∧ Layout n p g ops := by
  have hn30 : n ≤ 2 ^ 30 := by
    by_contra hlarge
    rw [barrier_x, loop_rounds_hang (by push_cast; omega) 32] at h
    cases h
  obtain ⟨b, hb, hbuilt⟩ := built_run (n := n) (p := p) comp (le_refl (rounds n))
  rw [barrier_x, loop_rounds_barrier hn30 hp] at h
  simp only [Option.bind_eq_bind, Option.bind_some, hb, Option.pure_def, Option.some.injEq,
    Prod.mk.injEq] at h
  obtain ⟨rfl, rfl⟩ := h
  exact ⟨hn30, hbuilt.wf, hbuilt.ops, hbuilt.length, hbuilt.fn, hbuilt.out_edges⟩

theorem barrier_x_isSome (hn : n ≤ 2 ^ 30) (hp : p < n) (comp : Bool) :
    ∃ g ops, barrier_x p n comp = some (g, ops) := by
  obtain ⟨b, hb, -⟩ := built_run (n := n) (p := p) comp (le_refl (rounds n))
  refine ⟨b.graph, b.ops, ?_⟩
  rw [barrier_x, loop_rounds_barrier hn hp]
  simp only [Option.bind_eq_bind, Option.bind_some, hb]
  rfl

end Barrier

section Nodes

variable {R k i : Nat}

theorem dummyNode_eq_node (h : dummyNode R k = .node i) : k + 1 ≠ R ∧ i = 3 * k := by
  by_cases hk : k + 1 = R
  · simp [dummyNode, hk] at h
  · simp only [dummyNode, hk, if_false, graph_node_t.node.injEq] at h
    exact ⟨hk, h.symm⟩

theorem oldNode_eq_node (h : oldNode R k = .node i) : ∃ j, k = j + 1 ∧ j + 1 ≠ R ∧ i = 3 * j := by
  cases k with
  | zero => cases h
  | succ j => exact ⟨j, rfl, dummyNode_eq_node h⟩

theorem recvNode_eq_node (h : recvNode R k = .node i) :
    i = if k + 1 = R then 3 * k else 3 * k + 1 :=
  (graph_node_t.node.inj h).symm

theorem sendNode_eq_node (h : sendNode R k = .node i) :
    i = if k + 1 = R then 3 * k + 1 else 3 * k + 2 :=
  (graph_node_t.node.inj h).symm

theorem mem_roundEdges_old_recv : (recvNode R k, false) ∈ roundEdges R k (oldNode R k) := by
  simp [roundEdges, linkEdges]

theorem mem_roundEdges_old_send : (sendNode R k, false) ∈ roundEdges R k (oldNode R k) := by
  simp [roundEdges, linkEdges]

theorem mem_roundEdges_recv_dummy : (dummyNode R k, false) ∈ roundEdges R k (recvNode R k) := by
  simp [roundEdges, linkEdges]

/-- A node numbered `3k` (a dummy node) ranks after the two nodes of its round that it waits for. -/
def rankOf (i : Nat) : Nat := if i % 3 = 0 then i + 3 else i

end Nodes

section Ops

variable {n p R : Nat}

theorem length_ops (hR : 1 ≤ R) :
    ((List.range R).flatMap (roundOps n p R)).length = 3 * R - 1 := by
  obtain ⟨k, rfl⟩ : ∃ k, R = k + 1 := ⟨R - 1, by omega⟩
  rw [List.range_succ, List.flatMap_append, List.length_append, length_flatMap_roundOps (by omega),
    List.flatMap_singleton, roundOps_length, if_pos rfl]
  omega

/-- The nodes numbered from `3k` are round `k`'s. -/
theorem getD_ops {k i : Nat} (hk : k < R) (hi : 3 * k ≤ i)
    (hi' : i < 3 * k + (roundOps n p R k).length) :
    ((List.range R).flatMap (roundOps n p R)).getD i .dummy =
      (roundOps n p R k).getD (i - 3 * k) .dummy := by
  obtain ⟨m, rfl⟩ : ∃ m, R = k + 1 + m := ⟨R - k - 1, by omega⟩
  have hpre : ((List.range k).flatMap (roundOps n p (k + 1 + m))).length = 3 * k :=
    length_flatMap_roundOps (by omega)
  rw [List.range_add, List.flatMap_append, List.getD_append, List.range_succ, List.flatMap_append,
    List.flatMap_singleton, List.getD_append_right _ _ _ _ (by omega), hpre]
  rw [List.range_succ, List.flatMap_append, List.flatMap_singleton, List.length_append, hpre]
  exact hi'

theorem roundOps_getD {k c : Nat} :
    (roundOps n p R k).getD c .dummy =
      if k + 1 = R then [Op.recv ((p + n - 2 ^ k) % n : Nat), .send ((p + 2 ^ k) % n : Nat)].getD c .dummy
      else [Op.dummy, .recv ((p + n - 2 ^ k) % n : Nat), .send ((p + 2 ^ k) % n : Nat)].getD c .dummy := by
  by_cases hk : k + 1 = R <;> simp [roundOps, Round.ops_after, round_at, hk]

end Ops

namespace Layout

variable {n p k : Nat} {g : graph_t} {ops : List Op} (hL : Layout n p g ops)
include hL

theorem nodes_length (hR : 1 ≤ rounds n) : g.nodes.length = 3 * rounds n - 1 := by
  rw [hL.length, hL.ops_eq, length_ops hR]

/-- Without rounds there are no nodes. -/
theorem one_le_rounds_of_lt {i : Nat} (hi : i < g.nodes.length) : 1 ≤ rounds n := by
  by_contra h0
  rw [hL.length, hL.ops_eq, show rounds n = 0 by omega] at hi
  simp at hi

theorem mem_out_edges {u : graph_node_t} {x : graph_node_t × Bool} :
    x ∈ g.out_edges u ↔ ∃ k < rounds n, x ∈ roundEdges (rounds n) k u := by
  rw [hL.out_edges, List.mem_flatMap]
  simp

theorem edge_of_mem (hk : k < rounds n) {u : graph_node_t} {x : graph_node_t × Bool}
    (hx : x ∈ roundEdges (rounds n) k u) : ∃ j : Nat, (g.out_edges u)[j]? = some x :=
  List.mem_iff_getElem?.mp (hL.mem_out_edges.mpr ⟨k, hk, hx⟩)

/-- Edges between nodes lead from a lower to a higher `rankOf`. -/
theorem acyclic : Acyclic g := by
  refine ⟨rankOf, fun i i' e he hi' => ?_⟩
  obtain ⟨k, hk, hx⟩ := hL.mem_out_edges.mp he
  simp only [roundEdges, linkEdges, List.mem_append] at hx
  rcases hx with ((hx | hx) | hx) | hx <;> split_ifs at hx with hu <;>
    simp only [List.mem_singleton, List.not_mem_nil] at hx <;> subst hx <;> simp only at hi'
  · obtain ⟨j, rfl, hj, rfl⟩ := oldNode_eq_node hu
    have := recvNode_eq_node hi'
    simp only [rankOf]
    split_ifs at this ⊢ <;> omega
  · obtain ⟨j, rfl, hj, rfl⟩ := oldNode_eq_node hu
    have := sendNode_eq_node hi'
    simp only [rankOf]
    split_ifs at this ⊢ <;> omega
  · obtain ⟨hlast, rfl⟩ := dummyNode_eq_node hi'
    have := recvNode_eq_node hu
    simp only [rankOf]
    split_ifs at this ⊢ <;> omega
  · obtain ⟨hlast, rfl⟩ := dummyNode_eq_node hi'
    have := sendNode_eq_node hu
    simp only [rankOf]
    split_ifs at this ⊢ <;> omega

theorem node_mem {i : Nat} (hi : i < 3 * rounds n - 1) : .node i ∈ g.handles :=
  mem_handles.mpr (.inr ⟨i, by rw [hL.nodes_length (by omega)]; exact hi, rfl⟩)

theorem recvNode_mem (hk : k < rounds n) : recvNode (rounds n) k ∈ g.handles := by
  unfold recvNode
  exact hL.node_mem (by split_ifs <;> omega)

theorem oldNode_mem (hk : k < rounds n) : oldNode (rounds n) k ∈ g.handles := by
  cases k with
  | zero => simp [oldNode]
  | succ j =>
    simp only [oldNode, dummyNode, if_neg (show j + 1 ≠ rounds n by omega)]
    exact hL.node_mem (by omega)

theorem fn_recvNode (hk : k < rounds n) : g.fn (recvNode (rounds n) k) = true := by
  unfold recvNode
  exact hL.fn _ (by rw [hL.nodes_length (by omega)]; split_ifs <;> omega)

/-- Every node has an edge into it: the dummy node of a round from the round's receive, the
receive and the send from the node the round hangs from. -/
theorem fed : Fed g := by
  intro i hi
  rw [hL.wf.expected _ (mem_handles.mpr (.inr ⟨i, hi, rfl⟩))]
  rw [hL.nodes_length (hL.one_le_rounds_of_lt hi)] at hi
  have hk : i / 3 < rounds n := by omega
  have hedge : ∀ u x, u ∈ g.handles → x ∈ roundEdges (rounds n) (i / 3) u → x.1 = .node i →
      0 < g.indegree (.node i) := fun u x hu hx hx1 =>
    indegree_pos hu (hL.mem_out_edges.mpr ⟨i / 3, hk, hx⟩) hx1
  by_cases hdummy : i % 3 = 0 ∧ i / 3 + 1 ≠ rounds n
  · refine hedge _ _ (hL.recvNode_mem hk) mem_roundEdges_recv_dummy ?_
    simp only [dummyNode, if_neg hdummy.2]
    congr 1
    omega
  · by_cases hrecv : (i % 3 = 0 ∧ i / 3 + 1 = rounds n) ∨ (i % 3 = 1 ∧ i / 3 + 1 ≠ rounds n)
    · refine hedge _ _ (hL.oldNode_mem hk) mem_roundEdges_old_recv ?_
      simp only [recvNode, graph_node_t.node.injEq]
      split_ifs <;> omega
    · refine hedge _ _ (hL.oldNode_mem hk) mem_roundEdges_old_send ?_
      simp only [sendNode, graph_node_t.node.injEq]
      split_ifs <;> omega

theorem opOf_recvNode (hk : k < rounds n) :
    opOf ops (recvNode (rounds n) k) = .recv ((p + n - 2 ^ k) % n : Nat) := by
  by_cases hlast : k + 1 = rounds n
  · simp only [recvNode, if_pos hlast, opOf, hL.ops_eq]
    rw [getD_ops hk le_rfl (by rw [roundOps_length, if_pos hlast]; omega), roundOps_getD,
      if_pos hlast]
    simp
  · simp only [recvNode, if_neg hlast, opOf, hL.ops_eq]
    rw [getD_ops hk (by omega) (by rw [roundOps_length, if_neg hlast]; omega), roundOps_getD,
      if_neg hlast]
    simp

theorem opOf_sendNode (hk : k < rounds n) :
    opOf ops (sendNode (rounds n) k) = .send ((p + 2 ^ k) % n : Nat) := by
  by_cases hlast : k + 1 = rounds n
  · simp only [sendNode, if_pos hlast, opOf, hL.ops_eq]
    rw [getD_ops hk (by omega) (by rw [roundOps_length, if_pos hlast]; omega), roundOps_getD,
      if_pos hlast]
    simp
  · simp only [sendNode, if_neg hlast, opOf, hL.ops_eq]
    rw [getD_ops hk (by omega) (by rw [roundOps_length, if_neg hlast]; omega), roundOps_getD,
      if_neg hlast]
    simp

/-- The node behind an operation: a node that posts a receive or a send is the one of its round. -/
theorem opOf_cases {u : graph_node_t} (hu : opOf ops u ≠ .dummy) :
    ∃ k < rounds n, u = recvNode (rounds n) k ∨ u = sendNode (rounds n) k := by
  cases u with
  | node i =>
    have hi : i < 3 * rounds n - 1 := by
      by_contra hge
      apply hu
      simp only [opOf]
      rw [List.getD_eq_default _ _ (by
        rw [hL.ops_eq]
        rcases Nat.eq_zero_or_pos (rounds n) with h0 | h0
        · simp [h0]
        · rw [length_ops h0]
          omega)]
    have hk : i / 3 < rounds n := by omega
    refine ⟨i / 3, hk, ?_⟩
    simp only [opOf, hL.ops_eq] at hu
    rw [getD_ops hk (by omega) (by rw [roundOps_length]; split_ifs <;> omega), roundOps_getD] at hu
    simp only [recvNode, sendNode, graph_node_t.node.injEq]
    split_ifs at hu ⊢ with hlast
    · have : i - 3 * (i / 3) < 2 := by omega
      interval_cases h : i - 3 * (i / 3) <;> omega
    · have : i - 3 * (i / 3) < 3 := by omega
      interval_cases h : i - 3 * (i / 3)
      · simp at hu
      · omega
      · omega
  | _ => simp [opOf] at hu

theorem eq_sendNode {u : graph_node_t} {d : Int} (h : opOf ops u = .send d) :
    ∃ k < rounds n, u = sendNode (rounds n) k ∧ d = ((p + 2 ^ k) % n : Nat) := by
  obtain ⟨k, hk, rfl | rfl⟩ := hL.opOf_cases (by rw [h]; simp)
  · rw [hL.opOf_recvNode hk] at h
    cases h
  · rw [hL.opOf_sendNode hk] at h
    exact ⟨k, hk, rfl, (Op.send.inj h).symm⟩

theorem eq_recvNode {u : graph_node_t} {s : Int} (h : opOf ops u = .recv s) :
    ∃ k < rounds n, u = recvNode (rounds n) k ∧ s = ((p + n - 2 ^ k) % n : Nat) := by
  obtain ⟨k, hk, rfl | rfl⟩ := hL.opOf_cases (by rw [h]; simp)
  · rw [hL.opOf_recvNode hk] at h
    exact ⟨k, hk, rfl, (Op.recv.inj h).symm⟩
  · rw [hL.opOf_sendNode hk] at h
    cases h

end Layout

section Peers

variable {n : Nat}

theorem pow_eq_of_modEq {k k' : Nat} (hk : 2 ^ k < n) (hk' : 2 ^ k' < n)
    (h : 2 ^ k ≡ 2 ^ k' [MOD n]) : k = k' :=
  Nat.pow_right_injective le_rfl (h.eq_of_lt_of_lt hk hk')

/-- The rank `q` that `p` receives from in round `k` sends to `p` in round `k` only. -/
theorem round_of_peer {p q k k' : Nat} (hk : 2 ^ k < n) (hk' : 2 ^ k' < n)
    (hq : q = (p + n - 2 ^ k) % n) (hpq : p = (q + 2 ^ k') % n) : k' = k := by
  have h1 : p + n - 2 ^ k + 2 ^ k' ≡ p [MOD n] :=
    calc p + n - 2 ^ k + 2 ^ k' ≡ q + 2 ^ k' [MOD n] :=
          Nat.ModEq.add_right _ (hq ▸ (Nat.mod_modEq _ _).symm)
      _ ≡ p [MOD n] := by
          rw [hpq]
          exact (Nat.mod_modEq _ _).symm
  have h2 : p + n - 2 ^ k + 2 ^ k ≡ p [MOD n] := by
    rw [Nat.sub_add_cancel (by omega)]
    exact Nat.add_modEq_right
  exact pow_eq_of_modEq hk' hk (Nat.ModEq.add_left_cancel' _ (h1.trans h2.symm))

/-- A rank sends to each rank in one round at most. -/
theorem send_round_unique {q k k' : Nat} (hk : 2 ^ k < n) (hk' : 2 ^ k' < n)
    (h : (q + 2 ^ k) % n = (q + 2 ^ k') % n) : k = k' :=
  pow_eq_of_modEq hk hk' (Nat.ModEq.add_left_cancel' q h)

/-- Going `d` back from `x mod n` is going `d` back from `x`. -/
theorem mod_add_sub_mod {x d : Nat} (hd : d ≤ n) : (x % n + n - d) % n = (x + n - d) % n := by
  have hx := Nat.mod_add_div x n
  have : x + n - d = x % n + n - d + n * (x / n) := by omega
  rw [this, Nat.add_mul_mod_self_left]

/-- Every round's jump stays below the number of ranks. -/
theorem pow_lt_of_lt_rounds {k : Nat} (hk : k < rounds n) : 2 ^ k < n :=
  (Nat.lt_clog_iff_pow_lt (by norm_num)).mp hk

/-- Going back from `p` by the distance from `q` to `p` lands on `q`. -/
theorem sub_sub_mod {p q : Nat} (hp : p < n) (hq : q < n) : (p + n - (p + n - q) % n) % n = q := by
  by_cases hqp : q ≤ p
  · have hd : (p + n - q) % n = p - q := by
      rw [show p + n - q = p - q + n by omega, Nat.add_mod_right, Nat.mod_eq_of_lt (by omega)]
    rw [hd, show p + n - (p - q) = q + n by omega, Nat.add_mod_right, Nat.mod_eq_of_lt hq]
  · rw [Nat.mod_eq_of_lt (show p + n - q < n by omega), show p + n - (p + n - q) = q by omega,
      Nat.mod_eq_of_lt hq]

end Peers

end Lci.Barrier
