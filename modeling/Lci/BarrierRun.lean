import Lci.Barrier

/-! The ranks running the dissemination barrier. A rank that entered runs the graph `barrier_x`
built for it, one `Graph.step` at a time; a send node's function posts a zero-byte message to its
peer, and a receive node's operation completes only by matching a message from its source that no
receive has matched yet. All the messages carry the barrier's one sequence number, so a receive
matches any such message. The ghost lists `sent` and `matched` record every message and the
receive node that matched it.

Everything rests on one fact: once the receive of round `k` at `p` has completed, every rank
less than `2^(k+1)` before `p` has entered. The receive was triggered after round `k - 1` at `p`
completed, and it matched the message of round `k` of the rank `2^k` before `p`, the only one that
rank sends to `p`, whose send was triggered after that rank's round `k - 1` completed. -/

namespace Lci.BarrierRun

open Lci.Barrier
open Lci.Graph (graph_t graph_node_t Activation)
open BinomialTree (rounds)
open Backlog (errorcode_t)

/-- A message of the barrier from `src` to `dst`, and the send node of `src` that posted it. -/
structure Msg where
  src : Nat
  dst : Nat
  node : graph_node_t
  deriving DecidableEq, Repr

/-- Who has entered the barrier, each rank's graph run, and the ghost record of the messages
sent and of the receive node that matched each. -/
structure State where
  entered : Nat → Bool
  graph : Nat → Graph.State
  sent : List Msg
  matched : List (Msg × graph_node_t)

/-- A rank calls the barrier, its graph takes a step, a node function returns (a receive may
match message `m`), or a node's operation completes (a receive by matching `m`). -/
inductive Action
  | enter (p : Nat)
  | exec (p : Nat) (u : graph_node_t)
  | returns (p : Nat) (u : graph_node_t) (r : errorcode_t) (m : Option Msg)
  | signal (p : Nat) (v : graph_node_t) (m : Option Msg)

def State.init : State := ⟨fun _ => false, fun _ => Graph.initial 0, [], []⟩

/-- Rank `p`'s graph `g` takes step `a`. -/
def State.run (s : State) (g : graph_t) (p : Nat) (a : Graph.Action) : Option State :=
  (Graph.step g (s.graph p) a).map fun gs => { s with graph := Function.update s.graph p gs }

/-- The receive node `u` at `p` from `src` matches message `m`: one from `src` to `p` that was
sent and not yet matched. -/
def match_recv (s : State) (p : Nat) (u : graph_node_t) (src : Int) : Option Msg → Option State
  | some m =>
    if m.src = src.toNat ∧ m.dst = p ∧ m ∈ s.sent ∧ m ∉ s.matched.map Prod.fst then
      some { s with matched := s.matched ++ [(m, u)] }
    else none
  | none => none

section Step

variable (n : Nat) (comp : Nat → Bool)

/-- A step of rank `p` of `n`; `comp p` is whether its barrier got a completion object. The node
functions post with `allow_retry(false)`, so none returns a retry; the dummy nodes' returns
`done`. -/
def step (s : State) : Action → Option State
  | .enter p =>
    match barrier_x p n (comp p) with
    | some (g, _) =>
      if p < n ∧ s.entered p = false then
        { s with entered := Function.update s.entered p true }.run g p .start
      else none
    | none => none
  | .exec p u =>
    match barrier_x p n (comp p) with
    | some (g, _) => if s.entered p then s.run g p (.exec u) else none
    | none => none
  | .returns p u r m =>
    match barrier_x p n (comp p) with
    | some (g, ops) =>
      if s.entered p ∧ r.is_retry = false then
        match opOf ops u with
        | .dummy => if r = .done ∧ m = none then s.run g p (.returns u r) else none
        | .send dst =>
          if m = none then
            { s with sent := s.sent ++ [(⟨p, dst.toNat, u⟩ : Msg)] }.run g p (.returns u r)
          else none
        | .recv src =>
          if r.is_done then (match_recv s p u src m).bind (·.run g p (.returns u r))
          else if m = none then s.run g p (.returns u r) else none
      else none
    | none => none
  | .signal p v m =>
    match barrier_x p n (comp p) with
    | some (g, ops) =>
      if s.entered p then
        match opOf ops v with
        | .recv src => (match_recv s p v src m).bind (·.run g p (.signal v))
        | _ => if m = none then s.run g p (.signal v) else none
      else none
    | none => none

/-- The states of `n` ranks in any interleaving of their steps and of the network. -/
def Reachable : State → Prop :=
  Machine.Reachable (· = State.init) (fun s s' => ∃ a, step n comp s a = some s')

/-- What every reachable state keeps: ranks that have not entered are untouched; an entered rank
runs its graph; every message was posted by a send node whose function has returned, to the peer
that node names, and each only once; every match pairs a message with a receive node at its
destination whose source is the message's sender, each message once; and every receive node that
completed has matched a message. -/
structure Inv (s : State) : Prop where
  idle : ∀ p, s.entered p = false → s.graph p = Graph.initial 0
  running : ∀ p, s.entered p = true → p < n ∧ ∃ g ops, barrier_x p n (comp p) = some (g, ops) ∧
    Graph.Reachable g (s.graph p) ∧ (s.graph p).act .GRAPH_START ≠ .idle
  sent : ∀ m ∈ s.sent, s.entered m.src = true ∧ ∃ g ops d,
    barrier_x m.src n (comp m.src) = some (g, ops) ∧ opOf ops m.node = .send d ∧
      m.dst = d.toNat ∧ ((s.graph m.src).act m.node).returned
  sent_nodup : s.sent.Nodup
  matched : ∀ mv ∈ s.matched, mv.1 ∈ s.sent ∧ s.entered mv.1.dst = true ∧ ∃ g ops src,
    barrier_x mv.1.dst n (comp mv.1.dst) = some (g, ops) ∧ opOf ops mv.2 = .recv src ∧
      mv.1.src = src.toNat
  matched_nodup : (s.matched.map Prod.fst).Nodup
  recv_matched : ∀ p g ops, s.entered p = true → barrier_x p n (comp p) = some (g, ops) →
    ∀ v src, opOf ops v = .recv src → ((s.graph p).act v).marked →
      ∃ m, (m, v) ∈ s.matched ∧ m.dst = p

end Step

section Graphs

variable {g : graph_t} {x y : Graph.State} {a : Graph.Action} {w : graph_node_t}

theorem returned_of_step (h : Graph.step g x a = some y) (ha : a ≠ .start)
    (hw : (x.act w).returned) : (y.act w).returned := by
  rcases Graph.step_moves h ha w with hw' | hm
  · rwa [hw']
  · exact hm.returned_mono hw

theorem active_of_step (h : Graph.step g x a = some y) (ha : a ≠ .start) (hw : x.act w ≠ .idle) :
    y.act w ≠ .idle := by
  rcases Graph.step_moves h ha w with hw' | hm
  · rwa [hw']
  · exact hm.active

/-- A node with a function completes only when it returns `done` or its operation signals. -/
theorem completes_of_step (h : Graph.step g x a = some y) (ha : a ≠ .start) (hfn : g.fn w = true)
    (hx : (x.act w).marked = false) (hy : (y.act w).marked) :
    (∃ r, a = .returns w r ∧ r.is_done = true) ∨ a = .signal w := by
  rcases Graph.step_moves h ha w with hw' | hm
  · rw [hw', hx] at hy
    cases hy
  · exact hm.done_of_marked hfn hx hy

theorem act_of_start {e : Nat} (h : Graph.step g (Graph.initial e) .start = some y) :
    y.act = fun u => if u = .GRAPH_START then .mark .reset false none else .idle := by
  obtain ⟨y', hy', hact⟩ := Graph.step_start_initial g e
  rw [h] at hy'
  cases hy'
  exact hact

end Graphs

section Preserve

variable {n : Nat} {comp : Nat → Bool} {s s' : State} {p : Nat} {g : graph_t} {ops : List Op}

theorem barrier_x_unique {c : Bool} {g' : graph_t} {ops' : List Op}
    (h : barrier_x p n c = some (g, ops)) (h' : barrier_x p n c = some (g', ops')) :
    g' = g ∧ ops' = ops := by
  rw [h] at h'
  cases h'
  exact ⟨rfl, rfl⟩

theorem fn_of_recv (hp : p < n) (hg : barrier_x p n (comp p) = some (g, ops)) {v : graph_node_t}
    {src : Int} (hv : opOf ops v = .recv src) : g.fn v = true := by
  obtain ⟨-, hL⟩ := barrier_x_layout hp hg
  obtain ⟨k, hk, rfl, -⟩ := hL.eq_recvNode hv
  exact hL.fn_recvNode hk

theorem run_eq_some {a : Graph.Action} (h : s.run g p a = some s') :
    ∃ y, Graph.step g (s.graph p) a = some y ∧
      s' = { s with graph := Function.update s.graph p y } := by
  obtain ⟨y, hy, rfl⟩ := Option.map_eq_some_iff.mp h
  exact ⟨y, hy, rfl⟩

theorem match_recv_eq_some {u : graph_node_t} {src : Int} {m : Option Msg}
    (h : match_recv s p u src m = some s') :
    ∃ m', m = some m' ∧ m'.src = src.toNat ∧ m'.dst = p ∧ m' ∈ s.sent ∧
      m' ∉ s.matched.map Prod.fst ∧ s' = { s with matched := s.matched ++ [(m', u)] } := by
  cases m with
  | none => cases h
  | some m' =>
    simp only [match_recv] at h
    split_ifs at h with hm
    cases h
    exact ⟨m', rfl, hm.1, hm.2.1, hm.2.2.1, hm.2.2.2, rfl⟩

theorem init_inv : Inv n comp State.init where
  idle _ _ := rfl
  running p h := absurd h (by simp [State.init])
  sent m h := absurd h List.not_mem_nil
  sent_nodup := List.nodup_nil
  matched mv h := absurd h List.not_mem_nil
  matched_nodup := List.nodup_nil
  recv_matched p _ _ h := absurd h (by simp [State.init])

variable {a : Graph.Action} {y : Graph.State}

/-- A receive node of an entered rank completes only by its own return `done` or signal. -/
theorem Inv.completes_recv (hi : Inv n comp s) (hp : s.entered p = true)
    (hg : barrier_x p n (comp p) = some (g, ops)) (hy : Graph.step g (s.graph p) a = some y)
    (ha : a ≠ .start) {v : graph_node_t} {src : Int} (hv : opOf ops v = .recv src)
    (hx : ((s.graph p).act v).marked = false) (hy' : (y.act v).marked) :
    (∃ r, a = .returns v r ∧ r.is_done = true) ∨ a = .signal v :=
  completes_of_step hy ha (fn_of_recv (hi.running p hp).1 hg hv) hx hy'

/-- **One graph step of an entered rank.** Rank `p`'s graph takes a step other than `start`; the
messages it posts were posted by its send nodes, which have returned, and the matches it makes
pair a sent message to `p` with a receive node from the message's sender; every receive node it
completes is among them. -/
theorem Inv.of_graph_step (hi : Inv n comp s) (hp : s.entered p = true)
    (hg : barrier_x p n (comp p) = some (g, ops)) (hy : Graph.step g (s.graph p) a = some y)
    (ha : a ≠ .start) (sent' : List Msg) (matched' : List (Msg × graph_node_t))
    (he : s'.entered = s.entered) (hgraph : s'.graph = Function.update s.graph p y)
    (hs : s'.sent = s.sent ++ sent') (hm : s'.matched = s.matched ++ matched')
    (hsent : ∀ m ∈ sent', m.src = p ∧ ∃ d, opOf ops m.node = .send d ∧ m.dst = d.toNat ∧
      (y.act m.node).returned)
    (hsent_nodup : (s.sent ++ sent').Nodup)
    (hmatched : ∀ mv ∈ matched', mv.1 ∈ s.sent ∧ mv.1.dst = p ∧ ∃ src,
      opOf ops mv.2 = .recv src ∧ mv.1.src = src.toNat)
    (hmatched_nodup : ((s.matched ++ matched').map Prod.fst).Nodup)
    (hnew : ∀ v src, opOf ops v = .recv src → ((s.graph p).act v).marked = false →
      (y.act v).marked → ∃ m, (m, v) ∈ matched' ∧ m.dst = p) :
    Inv n comp s' where
  idle q hq := by
    rw [he] at hq
    have hqp : q ≠ p := by
      rintro rfl
      rw [hp] at hq
      cases hq
    rw [hgraph, Function.update_of_ne hqp]
    exact hi.idle q hq
  running q hq := by
    rw [he] at hq
    obtain ⟨hqn, g0, ops0, hg0, hr, hstart⟩ := hi.running q hq
    refine ⟨hqn, g0, ops0, hg0, ?_⟩
    rw [hgraph]
    by_cases hqp : q = p
    · subst hqp
      obtain ⟨rfl, -⟩ := barrier_x_unique hg hg0
      rw [Function.update_self]
      exact ⟨Machine.Reachable.step hr ⟨a, hy⟩, active_of_step hy ha hstart⟩
    · rw [Function.update_of_ne hqp]
      exact ⟨hr, hstart⟩
  sent m hm' := by
    rw [hs, List.mem_append] at hm'
    rw [he, hgraph]
    rcases hm' with hm' | hm'
    · obtain ⟨hsrc, g0, ops0, d, hg0, hop, hdst, hret⟩ := hi.sent m hm'
      refine ⟨hsrc, g0, ops0, d, hg0, hop, hdst, ?_⟩
      by_cases hqp : m.src = p
      · rw [hqp, Function.update_self]
        exact returned_of_step hy ha (hqp ▸ hret)
      · rwa [Function.update_of_ne hqp]
    · obtain ⟨hsrc, d, hop, hdst, hret⟩ := hsent m hm'
      rw [hsrc, Function.update_self]
      exact ⟨hp, g, ops, d, hg, hop, hdst, hret⟩
  sent_nodup := hs ▸ hsent_nodup
  matched mv hmv := by
    rw [hm, List.mem_append] at hmv
    rw [hs, he]
    rcases hmv with hmv | hmv
    · obtain ⟨hsent0, hdst, rest⟩ := hi.matched mv hmv
      exact ⟨List.mem_append_left _ hsent0, hdst, rest⟩
    · obtain ⟨hsent0, hdst, src, hop, hsrc⟩ := hmatched mv hmv
      rw [hdst]
      exact ⟨List.mem_append_left _ hsent0, hp, g, ops, src, hg, hop, hsrc⟩
  matched_nodup := hm ▸ hmatched_nodup
  recv_matched q g0 ops0 hq hg0 v src hv hmark := by
    rw [he] at hq
    rw [hgraph] at hmark
    rw [hm]
    by_cases hqp : q = p
    · subst hqp
      obtain ⟨rfl, rfl⟩ := barrier_x_unique hg hg0
      rw [Function.update_self] at hmark
      cases hx : ((s.graph q).act v).marked
      · obtain ⟨m, hmv, hdst⟩ := hnew v src hv hx hmark
        exact ⟨m, List.mem_append_right _ hmv, hdst⟩
      · obtain ⟨m, hmv, hdst⟩ := hi.recv_matched q g0 ops0 hq hg0 v src hv hx
        exact ⟨m, List.mem_append_left _ hmv, hdst⟩
    · rw [Function.update_of_ne hqp] at hmark
      obtain ⟨m, hmv, hdst⟩ := hi.recv_matched q g0 ops0 hq hg0 v src hv hmark
      exact ⟨m, List.mem_append_left _ hmv, hdst⟩

theorem Inv.of_quiet (hi : Inv n comp s) (hp : s.entered p = true)
    (hg : barrier_x p n (comp p) = some (g, ops)) (hy : Graph.step g (s.graph p) a = some y)
    (ha : a ≠ .start) (hquiet : ∀ v src, opOf ops v = .recv src →
      ¬((∃ r, a = .returns v r ∧ r.is_done = true) ∨ a = .signal v)) :
    Inv n comp { s with graph := Function.update s.graph p y } :=
  hi.of_graph_step hp hg hy ha [] [] rfl rfl (List.append_nil _).symm (List.append_nil _).symm
    (by simp) (by simpa using hi.sent_nodup) (by simp) (by simpa using hi.matched_nodup)
    fun v src hv hx hy' => absurd (hi.completes_recv hp hg hy ha hv hx hy') (hquiet v src hv)

/-- A graph step in which the receive node `v` matches message `m`, and no other receive node
completes. -/
theorem Inv.of_match (hi : Inv n comp s) (hp : s.entered p = true)
    (hg : barrier_x p n (comp p) = some (g, ops)) (hy : Graph.step g (s.graph p) a = some y)
    (ha : a ≠ .start) {v : graph_node_t} {src : Int} {m : Msg} (hv : opOf ops v = .recv src)
    (hsrc : m.src = src.toNat) (hdst : m.dst = p) (hm : m ∈ s.sent)
    (hfresh : m ∉ s.matched.map Prod.fst)
    (honly : ∀ w, ((∃ r, a = .returns w r ∧ r.is_done = true) ∨ a = .signal w) → w = v) :
    Inv n comp { s with
      matched := s.matched ++ [(m, v)]
      graph := Function.update s.graph p y } := by
  refine hi.of_graph_step hp hg hy ha [] [(m, v)] rfl rfl (List.append_nil _).symm rfl (by simp)
    (by simpa using hi.sent_nodup) ?_ ?_ ?_
  · intro mv hmv
    rw [List.mem_singleton.mp hmv]
    exact ⟨hm, hdst, src, hv, hsrc⟩
  · exact Machine.keys_append_nodup hi.matched_nodup hfresh
  · intro w src' hw hx hy'
    rw [honly w (hi.completes_recv hp hg hy ha hw hx hy')]
    exact ⟨m, List.mem_singleton_self _, hdst⟩

theorem Inv.of_send (hi : Inv n comp s) (hp : s.entered p = true)
    (hg : barrier_x p n (comp p) = some (g, ops)) {u : graph_node_t} {r : errorcode_t}
    (hr : r.is_retry = false) (hy : Graph.step g (s.graph p) (.returns u r) = some y)
    {dst : Int} (hu : opOf ops u = .send dst) :
    Inv n comp { s with
      sent := s.sent ++ [(⟨p, dst.toNat, u⟩ : Msg)]
      graph := Function.update s.graph p y } := by
  obtain ⟨c, hrun, hret⟩ := Graph.step_returns hy hr
  have hret' : (y.act u).returned := by
    rw [hret]
    split_ifs <;> rfl
  refine hi.of_graph_step hp hg hy (by simp) [⟨p, dst.toNat, u⟩] [] rfl rfl rfl
    (List.append_nil _).symm ?_ ?_ (by simp) (by simpa using hi.matched_nodup) ?_
  · intro m hm
    rw [List.mem_singleton.mp hm]
    exact ⟨rfl, dst, hu, rfl, hret'⟩
  · refine List.nodup_append.mpr ⟨hi.sent_nodup, List.nodup_singleton _, ?_⟩
    rintro m hm _ hm' rfl
    rw [List.mem_singleton.mp hm'] at hm
    have hold := (hi.sent _ hm).2
    obtain ⟨-, -, -, -, -, -, hold⟩ := hold
    rw [hrun] at hold
    cases hold
  · intro v src hv hx hy'
    rcases hi.completes_recv hp hg hy (by simp) hv hx hy' with ⟨r', hr', -⟩ | hr'
    · cases hr'
      rw [hu] at hv
      cases hv
    · cases hr'

/-- A rank entering the barrier starts its graph afresh, with no receive node active. -/
theorem Inv.of_enter (hi : Inv n comp s) (hg : barrier_x p n (comp p) = some (g, ops))
    (hpn : p < n) (hp : s.entered p = false) (hy : Graph.step g (s.graph p) .start = some y) :
    Inv n comp { s with
      entered := Function.update s.entered p true
      graph := Function.update s.graph p y } := by
  rw [hi.idle p hp] at hy
  have hact := act_of_start hy
  have hne : ∀ q, s.entered q = true → q ≠ p := fun q hq hqp => by
    rw [hqp, hp] at hq
    cases hq
  refine ⟨fun q hq => ?_, fun q hq => ?_, fun m hm => ?_, hi.sent_nodup, fun mv hmv => ?_,
    hi.matched_nodup, fun q g0 ops0 hq hg0 v src hv hmark => ?_⟩
  · have hqp : q ≠ p := by
      rintro rfl
      simp at hq
    dsimp only at hq ⊢
    rw [Function.update_of_ne hqp] at hq ⊢
    exact hi.idle q hq
  · dsimp only at hq ⊢
    by_cases hqp : q = p
    · subst hqp
      rw [Function.update_self]
      refine ⟨hpn, g, ops, hg, Machine.Reachable.step (.init ⟨0, rfl⟩) ⟨.start, hy⟩, ?_⟩
      simp [hact]
    · rw [Function.update_of_ne hqp] at hq ⊢
      exact hi.running q hq
  · obtain ⟨hsrc, rest⟩ := hi.sent m hm
    dsimp only
    rw [Function.update_of_ne (hne _ hsrc), Function.update_of_ne (hne _ hsrc)]
    exact ⟨hsrc, rest⟩
  · obtain ⟨hsent, hdst, rest⟩ := hi.matched mv hmv
    dsimp only
    rw [Function.update_of_ne (hne _ hdst)]
    exact ⟨hsent, hdst, rest⟩
  · dsimp only at hq hmark
    by_cases hqp : q = p
    · subst hqp
      have hv0 : v ≠ .GRAPH_START := by
        rintro rfl
        cases hv
      rw [Function.update_self, hact] at hmark
      simp [hv0, Activation.marked] at hmark
    · rw [Function.update_of_ne hqp] at hq hmark
      exact hi.recv_matched q g0 ops0 hq hg0 v src hv hmark

/-- The receive node `v` matches a message and its graph takes step `a`, which completes no other
receive node. -/
theorem Inv.of_match_run (hi : Inv n comp s) (hp : s.entered p = true)
    (hg : barrier_x p n (comp p) = some (g, ops)) (ha : a ≠ .start) {v : graph_node_t}
    {src : Int} {m : Option Msg} (hv : opOf ops v = .recv src)
    (honly : ∀ w, ((∃ r, a = .returns w r ∧ r.is_done = true) ∨ a = .signal w) → w = v)
    (h : (match_recv s p v src m).bind (·.run g p a) = some s') : Inv n comp s' := by
  obtain ⟨s1, hs1, h⟩ := Option.bind_eq_some_iff.mp h
  obtain ⟨m', -, hsrc, hdst, hm', hfresh, rfl⟩ := match_recv_eq_some hs1
  obtain ⟨y, hy, rfl⟩ := run_eq_some h
  exact hi.of_match hp hg hy ha hv hsrc hdst hm' hfresh honly

theorem Inv.of_enter_step (hi : Inv n comp s) (h : step n comp s (.enter p) = some s') :
    Inv n comp s' := by
  simp only [step] at h
  split at h
  · rename_i g ops hg
    by_cases hc : p < n ∧ s.entered p = false
    · rw [if_pos hc] at h
      obtain ⟨y, hy, rfl⟩ := run_eq_some h
      exact hi.of_enter hg hc.1 hc.2 hy
    · rw [if_neg hc] at h
      cases h
  · cases h

theorem Inv.of_exec (hi : Inv n comp s) {u : graph_node_t}
    (h : step n comp s (.exec p u) = some s') : Inv n comp s' := by
  simp only [step] at h
  split at h
  · rename_i g ops hg
    by_cases hp : s.entered p = true
    · rw [if_pos hp] at h
      obtain ⟨y, hy, rfl⟩ := run_eq_some h
      refine hi.of_quiet hp hg hy (by simp) fun v src _ => ?_
      rintro (⟨r, hr, -⟩ | hr) <;> cases hr
    · rw [if_neg hp] at h
      cases h
  · cases h

/-- A node function returns: a dummy node's, a send node's (posting its message) or a receive
node's (matching a message when it returns done). -/
theorem Inv.of_returns (hi : Inv n comp s) {u : graph_node_t} {r : errorcode_t}
    {m : Option Msg} (h : step n comp s (.returns p u r m) = some s') : Inv n comp s' := by
  simp only [step] at h
  split at h
  · rename_i g ops hg
    by_cases hc : s.entered p = true ∧ r.is_retry = false
    · rw [if_pos hc] at h
      obtain ⟨hp, hr⟩ := hc
      split at h
      · rename_i hu
        by_cases hd : r = .done ∧ m = none
        · rw [if_pos hd] at h
          obtain ⟨y, hy, rfl⟩ := run_eq_some h
          refine hi.of_quiet hp hg hy (by simp) fun v src hv => ?_
          rintro (⟨r', hr', -⟩ | hr')
          · cases hr'
            rw [hu] at hv
            cases hv
          · cases hr'
        · rw [if_neg hd] at h
          cases h
      · rename_i dst hu
        by_cases hm : m = none
        · rw [if_pos hm] at h
          obtain ⟨y, hy, rfl⟩ := run_eq_some h
          exact hi.of_send hp hg hr hy hu
        · rw [if_neg hm] at h
          cases h
      · rename_i src hu
        by_cases hd : r.is_done = true
        · rw [if_pos hd] at h
          refine hi.of_match_run hp hg (by simp) hu (fun w hw => ?_) h
          rcases hw with ⟨r', hr', -⟩ | hr'
          · cases hr'
            rfl
          · cases hr'
        · rw [if_neg hd] at h
          by_cases hm : m = none
          · rw [if_pos hm] at h
            obtain ⟨y, hy, rfl⟩ := run_eq_some h
            refine hi.of_quiet hp hg hy (by simp) fun v src hv => ?_
            rintro (⟨r', hr', hdone⟩ | hr')
            · cases hr'
              exact hd hdone
            · cases hr'
          · rw [if_neg hm] at h
            cases h
    · rw [if_neg hc] at h
      cases h
  · cases h

theorem Inv.of_signal (hi : Inv n comp s) {v : graph_node_t} {m : Option Msg}
    (h : step n comp s (.signal p v m) = some s') : Inv n comp s' := by
  simp only [step] at h
  split at h
  · rename_i g ops hg
    by_cases hp : s.entered p = true
    · rw [if_pos hp] at h
      split at h
      · rename_i src hv
        refine hi.of_match_run hp hg (by simp) hv (fun w hw => ?_) h
        rcases hw with ⟨r', hr', -⟩ | hr'
        · cases hr'
        · cases hr'
          rfl
      · rename_i hv
        by_cases hm : m = none
        · rw [if_pos hm] at h
          obtain ⟨y, hy, rfl⟩ := run_eq_some h
          refine hi.of_quiet hp hg hy (by simp) fun w src hw => ?_
          rintro (⟨r', hr', -⟩ | hr')
          · cases hr'
          · cases hr'
            exact hv src hw
        · rw [if_neg hm] at h
          cases h
    · rw [if_neg hp] at h
      cases h
  · cases h

theorem Inv.of_step (hi : Inv n comp s) {a : Action} (h : step n comp s a = some s') :
    Inv n comp s' := by
  cases a with
  | enter p => exact hi.of_enter_step h
  | exec p u => exact hi.of_exec h
  | returns p u r m => exact hi.of_returns h
  | signal p v m => exact hi.of_signal h

theorem Reachable.inv (hs : Reachable n comp s) : Inv n comp s :=
  Machine.Reachable.induction_inv (fun _ h => h ▸ init_inv) (fun _ _ hi ⟨_, h⟩ => hi.of_step h) hs

end Preserve

section Knowledge

variable {n : Nat} {comp : Nat → Bool} {s : State} {p k : Nat} {g : graph_t} {ops : List Op}

/-- Every rank less than `j` before `p`, counting around the `n` ranks, has entered the
barrier. -/
def EnteredBefore (s : State) (n p j : Nat) : Prop :=
  ∀ d < j, d < n → s.entered ((p + n - d) % n) = true

theorem EnteredBefore.one (hp : s.entered p = true) (hpn : p < n) : EnteredBefore s n p 1 := by
  intro d hd _
  rw [show d = 0 by omega, Nat.sub_zero, Nat.add_mod_right, Nat.mod_eq_of_lt hpn]
  exact hp

/-- **Doubling.** What `p` knows of the `2^k` ranks before it and what the rank `2^k` before it
knows of the `2^k` before that cover the `2^(k+1)` ranks before `p`. -/
theorem EnteredBefore.double (hk : 2 ^ k < n) (hp : EnteredBefore s n p (2 ^ k))
    (hq : EnteredBefore s n ((p + n - 2 ^ k) % n) (2 ^ k)) :
    EnteredBefore s n p (2 ^ (k + 1)) := by
  intro d hd hdn
  by_cases hlt : d < 2 ^ k
  · exact hp d hlt hdn
  · have hd' : d - 2 ^ k < 2 ^ k := by
      rw [pow_succ] at hd
      omega
    have heq : (p + n - d) % n = ((p + n - 2 ^ k) % n + n - (d - 2 ^ k)) % n := by
      rw [mod_add_sub_mod (by omega), show p + n - 2 ^ k + n - (d - 2 ^ k) = p + n - d + n by omega,
        Nat.add_mod_right]
    rw [heq]
    exact hq _ hd' (by omega)

theorem EnteredBefore.all {j : Nat} (hpn : p < n) (hj : n ≤ j) (h : EnteredBefore s n p j) :
    ∀ q < n, s.entered q = true := by
  intro q hq
  rw [← sub_sub_mod hpn hq]
  exact h _ (by have := Nat.mod_lt (p + n - q) (by omega : 0 < n); omega) (Nat.mod_lt _ (by omega))

theorem Activation.ne_idle_of_completing {x : Activation} (h : x.completing) : x ≠ .idle :=
  Activation.ne_idle_of_returned (Activation.returned_of_marked (Activation.marked_of_completing h))

/-- An entered rank runs the graph `barrier_x` built for it, laid out round by round. -/
theorem Inv.graph_of_entered (hi : Inv n comp s) (hp : s.entered p = true)
    (hg : barrier_x p n (comp p) = some (g, ops)) :
    p < n ∧ Layout n p g ops ∧ Graph.Reachable g (s.graph p) ∧
      (s.graph p).act .GRAPH_START ≠ .idle := by
  obtain ⟨hpn, g0, ops0, hg0, hr, hstart⟩ := hi.running p hp
  obtain ⟨rfl, rfl⟩ := barrier_x_unique hg hg0
  exact ⟨hpn, (barrier_x_layout hpn hg0).2, hr, hstart⟩

/-- Every message was posted by the send node of some round `k`, to the rank `2^k` after its
sender. -/
theorem Inv.sent_round (hi : Inv n comp s) {m : Msg} (hm : m ∈ s.sent) :
    ∃ k < rounds n, m.node = sendNode (rounds n) k ∧ m.dst = (m.src + 2 ^ k) % n := by
  obtain ⟨hsrc, g, ops, d, hg, hop, hdst, -⟩ := hi.sent m hm
  obtain ⟨-, hL, -⟩ := hi.graph_of_entered hsrc hg
  obtain ⟨k, hk, hnode, rfl⟩ := hL.eq_sendNode hop
  exact ⟨k, hk, hnode, by simpa only [Int.toNat_natCast] using hdst⟩

/-- The receive node of round `k` matched the message of the send node of round `k` of the rank
`2^k` before its own. -/
theorem Inv.matched_send (hi : Inv n comp s) {mv : Msg × graph_node_t} (hmv : mv ∈ s.matched)
    (hk : k < rounds n) (hv : mv.2 = recvNode (rounds n) k) :
    mv.1.node = sendNode (rounds n) k ∧ mv.1.src = (mv.1.dst + n - 2 ^ k) % n := by
  obtain ⟨hsent, hdst, g, ops, src, hg, hop, hsrc⟩ := hi.matched mv hmv
  obtain ⟨-, hL, -⟩ := hi.graph_of_entered hdst hg
  rw [hv, hL.opOf_recvNode hk] at hop
  cases hop
  have hsrc' : mv.1.src = (mv.1.dst + n - 2 ^ k) % n := by simpa only [Int.toNat_natCast] using hsrc
  obtain ⟨k', hk', hnode, hdst'⟩ := hi.sent_round hsent
  obtain rfl := round_of_peer (pow_lt_of_lt_rounds hk) (pow_lt_of_lt_rounds hk') hsrc' hdst'
  exact ⟨hnode, hsrc'⟩

/-- A node of round `k + 1` is triggered only after the receive of round `k` completed: the
round hangs from the dummy node that waits for it. -/
theorem Inv.recv_marked_of_next (hi : Inv n comp s) (hp : s.entered p = true)
    (hg : barrier_x p n (comp p) = some (g, ops)) (hk : k + 1 < rounds n) {u : graph_node_t}
    (hu : u = recvNode (rounds n) (k + 1) ∨ u = sendNode (rounds n) (k + 1))
    (hact : (s.graph p).act u ≠ .idle) : ((s.graph p).act (recvNode (rounds n) k)).marked := by
  obtain ⟨-, hL, hr, -⟩ := hi.graph_of_entered hp hg
  have hin : (u, false) ∈ roundEdges (rounds n) (k + 1) (oldNode (rounds n) (k + 1)) := by
    rcases hu with rfl | rfl
    · exact mem_roundEdges_old_recv
    · exact mem_roundEdges_old_send
  obtain ⟨j, hj⟩ := hL.edge_of_mem hk hin
  have hdummy : ((s.graph p).act (dummyNode (rounds n) k)).completing :=
    (Graph.triggered_after_inputs hL.wf hL.acyclic hL.fed hr hact hj rfl).1
  have hin' : (dummyNode (rounds n) k, false) ∈ roundEdges (rounds n) k (recvNode (rounds n) k) :=
    mem_roundEdges_recv_dummy
  obtain ⟨j', hj'⟩ := hL.edge_of_mem (by omega) hin'
  exact Activation.marked_of_completing (Graph.triggered_after_inputs hL.wf hL.acyclic hL.fed hr
    (Activation.ne_idle_of_completing hdummy) hj' rfl).1

/-- The step from round `k` to `k + 1`: the completed receive of round `k` at `p` matched the
send of round `k` of the rank `2^k` before `p`, which had itself reached round `k`. -/
theorem Inv.entered_before_of_recv (hi : Inv n comp s) (hk : k < rounds n)
    (hP : ∀ q gq opsq, s.entered q = true → barrier_x q n (comp q) = some (gq, opsq) →
      ∀ u, (u = recvNode (rounds n) k ∨ u = sendNode (rounds n) k) → (s.graph q).act u ≠ .idle →
        EnteredBefore s n q (2 ^ k))
    (hp : s.entered p = true) (hg : barrier_x p n (comp p) = some (g, ops))
    (hmark : ((s.graph p).act (recvNode (rounds n) k)).marked) :
    EnteredBefore s n p (2 ^ (k + 1)) := by
  obtain ⟨-, hL, -⟩ := hi.graph_of_entered hp hg
  obtain ⟨m, hmv, hdst⟩ := hi.recv_matched p g ops hp hg _ _ (hL.opOf_recvNode hk) hmark
  obtain ⟨hnode, hsrc⟩ := hi.matched_send hmv hk rfl
  obtain ⟨hm, -⟩ := hi.matched _ hmv
  obtain ⟨hqe, gq, opsq, -, hgq, -, -, hret⟩ := hi.sent m hm
  have hq := hP m.src gq opsq hqe hgq (sendNode (rounds n) k) (.inr rfl)
    (hnode ▸ Activation.ne_idle_of_returned hret)
  have hpk := hP p g ops hp hg (recvNode (rounds n) k) (.inl rfl)
    (Activation.ne_idle_of_returned (Activation.returned_of_marked hmark))
  rw [hsrc, hdst] at hq
  exact hpk.double (pow_lt_of_lt_rounds hk) hq

/-- **What a rank knows in round `k`.** Once a node of round `k` at `p` has been triggered, every
rank less than `2^k` before `p` has entered. By induction on `k`, each round through the receive
of the round before. -/
theorem Inv.entered_before_round (hi : Inv n comp s) (hk : k < rounds n)
    (hp : s.entered p = true) (hg : barrier_x p n (comp p) = some (g, ops)) {u : graph_node_t}
    (hu : u = recvNode (rounds n) k ∨ u = sendNode (rounds n) k)
    (hact : (s.graph p).act u ≠ .idle) : EnteredBefore s n p (2 ^ k) := by
  induction k generalizing p g ops u with
  | zero => exact EnteredBefore.one hp (hi.running p hp).1
  | succ k ih =>
    exact hi.entered_before_of_recv (by omega)
      (fun q gq opsq hq hgq _ hu' hact' => ih (by omega) hq hgq hu' hact') hp hg
      (hi.recv_marked_of_next hp hg hk hu hact)

/-- **The barrier's guarantee.** Once the graph of `p` reached `GRAPH_END` (`test` reports done,
or its completion object was signaled), every rank has entered the barrier: the last round's
receive, whose edge into `GRAPH_END` has fired, knows of `2^rounds ≥ n` ranks. -/
theorem Inv.all_entered (hi : Inv n comp s) (hn : 2 ≤ n) (hpn : p < n)
    (hg : barrier_x p n (comp p) = some (g, ops))
    (hend : Graph.test g (s.graph p) = .done ∨ (s.graph p).comp_signals = 1) :
    ∀ q < n, s.entered q = true := by
  have hR : 1 ≤ rounds n := BinomialTree.one_le_rounds hn
  have hL := (barrier_x_layout hpn hg).2
  have hend' : dummyNode (rounds n) (rounds n - 1) = .GRAPH_END := by
    rw [dummyNode, if_pos (by omega)]
  have hin : (dummyNode (rounds n) (rounds n - 1), false) ∈
      roundEdges (rounds n) (rounds n - 1) (recvNode (rounds n) (rounds n - 1)) :=
    mem_roundEdges_recv_dummy
  obtain ⟨j, hj⟩ := hL.edge_of_mem (by omega) hin
  cases hp : s.entered p with
  | false =>
    rw [hi.idle p hp] at hend
    have hexp : g.m_end_signals_expected ≠ 0 := by
      rw [hL.wf.end_expected]
      exact (Graph.indegree_pos (hL.recvNode_mem (by omega)) (List.mem_of_getElem? hj) hend').ne'
    rcases hend with h | h
    · rw [Graph.test, if_neg (show (Graph.initial 0).m_end_signals_received ≠ _ from hexp.symm)]
        at h
      cases h
    · cases h
  | true =>
    obtain ⟨-, -, hr, hstart⟩ := hi.graph_of_entered hp hg
    have hall : ∀ u j e, (g.out_edges u)[j]? = some e → e.1 = .GRAPH_END →
        j < ((s.graph p).act u).signaled (g.out_edges u).length := by
      rcases hend with h | h
      · exact (Graph.test_done_iff hL.wf hL.acyclic hL.fed hr hstart).mp h
      · exact (Graph.comp_signaled_once hL.wf hL.acyclic hL.fed hr).2.1 h
    have hsig := hall _ j _ hj hend'
    have hmark : ((s.graph p).act (recvNode (rounds n) (rounds n - 1))).marked :=
      Activation.marked_of_completing
        (Activation.completing_of_signaled_pos (Nat.zero_lt_of_lt hsig))
    have hknow := hi.entered_before_of_recv (by omega)
      (fun q _ _ hq hgq _ hu hact => hi.entered_before_round (by omega) hq hgq hu hact) hp hg hmark
    rw [Nat.sub_add_cancel hR] at hknow
    exact hknow.all hpn (Nat.le_pow_clog (by norm_num) n)

theorem Inv.sent_pairs_nodup (hi : Inv n comp s) :
    (s.sent.map fun m => (m.src, m.dst)).Nodup := by
  refine List.Nodup.map_on (fun m hm m' hm' h => ?_) hi.sent_nodup
  simp only [Prod.mk.injEq] at h
  obtain ⟨hsrc, hd⟩ := h
  obtain ⟨k, hk, hnode, hdst⟩ := hi.sent_round hm
  obtain ⟨k', hk', hnode', hdst'⟩ := hi.sent_round hm'
  have hkk : k = k' := send_round_unique (pow_lt_of_lt_rounds hk) (pow_lt_of_lt_rounds hk')
    (by rw [← hdst, hd, hdst', hsrc])
  cases m
  cases m'
  simp only [Msg.mk.injEq]
  exact ⟨hsrc, hd, hnode.trans (hkk ▸ hnode'.symm)⟩

/-- Every receive node matched the message of the send node of its own round. -/
theorem Inv.matched_rounds (hi : Inv n comp s) :
    ∀ mv ∈ s.matched, ∃ k < rounds n,
      mv.2 = recvNode (rounds n) k ∧ mv.1.node = sendNode (rounds n) k := by
  intro mv hmv
  obtain ⟨-, hdst, g, ops, src, hg, hop, -⟩ := hi.matched mv hmv
  obtain ⟨-, hL, -⟩ := hi.graph_of_entered hdst hg
  obtain ⟨k, hk, hv, -⟩ := hL.eq_recvNode hop
  exact ⟨k, hk, hv, (hi.matched_send hmv hk hv).1⟩

end Knowledge

theorem barrier_x_synchronizes {n : Nat} {comp : Nat → Bool} {s : State} (hn : 2 ≤ n)
    (hs : Reachable n comp s) :
    (∀ p < n, ∀ g ops, barrier_x p n (comp p) = some (g, ops) →
      Graph.test g (s.graph p) = .done ∨ (s.graph p).comp_signals = 1 →
        ∀ q < n, s.entered q = true) ∧
    (s.sent.map fun m => (m.src, m.dst)).Nodup ∧
    ∀ mv ∈ s.matched, ∃ k < rounds n,
      mv.2 = recvNode (rounds n) k ∧ mv.1.node = sendNode (rounds n) k := by
  have hi := hs.inv
  exact ⟨fun p hp g ops hg hend => hi.all_entered hn hp hg hend, hi.sent_pairs_nodup,
    hi.matched_rounds⟩

/-- Two ranks run the barrier to the end: each enters, posts its receive and its send, the
receive of each matches the other's message, and both graphs signal `GRAPH_END` twice. -/
def two_rank_run : List Action :=
  [.enter 0, .enter 1,
    .exec 0 .GRAPH_START, .exec 0 .GRAPH_START, .exec 0 .GRAPH_START, .exec 0 .GRAPH_START,
    .exec 0 (.node 0),
    .exec 1 .GRAPH_START, .exec 1 .GRAPH_START, .exec 1 .GRAPH_START, .exec 1 .GRAPH_START,
    .exec 1 (.node 0), .returns 0 (.node 0) .posted none,
    .exec 0 .GRAPH_START, .exec 0 .GRAPH_START, .exec 0 .GRAPH_START,
    .exec 0 (.node 1), .returns 0 (.node 1) .posted none, .exec 0 .GRAPH_START,
    .returns 1 (.node 0) .posted none,
    .exec 1 .GRAPH_START, .exec 1 .GRAPH_START, .exec 1 .GRAPH_START,
    .exec 1 (.node 1), .returns 1 (.node 1) .posted none, .exec 1 .GRAPH_START,
    .signal 0 (.node 0) (some ⟨1, 0, .node 1⟩),
    .exec 0 (.node 0), .exec 0 (.node 0), .exec 0 (.node 0), .exec 0 (.node 0), .exec 0 (.node 0),
    .signal 0 (.node 1) none,
    .exec 0 (.node 1), .exec 0 (.node 1), .exec 0 (.node 1), .exec 0 (.node 1), .exec 0 (.node 1),
    .signal 1 (.node 0) (some ⟨0, 1, .node 1⟩),
    .exec 1 (.node 0), .exec 1 (.node 0), .exec 1 (.node 0), .exec 1 (.node 0), .exec 1 (.node 0),
    .signal 1 (.node 1) none,
    .exec 1 (.node 1), .exec 1 (.node 1), .exec 1 (.node 1), .exec 1 (.node 1), .exec 1 (.node 1)]

/-- Where `two_rank_run` leaves two ranks. -/
def two_rank_state : State := (two_rank_run.foldlM (step 2 fun _ => false) State.init).getD State.init

theorem barrier_x_synchronizes_two :
    let s := two_rank_state
    Reachable 2 (fun _ => false) s ∧ (∀ p < (2 : Nat), ∃ g ops, barrier_x p 2 false = some (g, ops)) ∧
      (s.graph 0).m_end_signals_received = 2 ∧ (s.graph 1).m_end_signals_received = 2 ∧
      s.sent = [⟨0, 1, .node 1⟩, ⟨1, 0, .node 1⟩] ∧ s.matched.length = 2 ∧
      ((∀ p < (2 : Nat), ∀ g ops, barrier_x p 2 false = some (g, ops) →
        Graph.test g (s.graph p) = .done ∨ (s.graph p).comp_signals = 1 →
          ∀ q < (2 : Nat), s.entered q = true) ∧
      (s.sent.map fun m => (m.src, m.dst)).Nodup ∧
      ∀ mv ∈ s.matched, ∃ k < rounds 2,
        mv.2 = recvNode (rounds 2) k ∧ mv.1.node = sendNode (rounds 2) k) :=
  have h0 : Reachable 2 (fun _ => false) State.init := .init rfl
  have hs : Reachable 2 (fun _ => false) two_rank_state :=
    Machine.Reachable.of_foldlM_isSome h0 two_rank_run (by decide +kernel)
  have hbuilt : ∀ p < (2 : Nat), ∃ g ops, barrier_x p 2 false = some (g, ops) :=
    fun p hp => @barrier_x_isSome 2 p (by norm_num) hp false
  ⟨hs, hbuilt, by decide +kernel, by decide +kernel,
    by decide +kernel, by decide +kernel, barrier_x_synchronizes (by decide) hs⟩

end Lci.BarrierRun
