import Lci.Machine

/-! The backlog queue of an endpoint. An operation that the network refuses with a retry, when its
caller does not allow retries, is pushed to the backlog queue of the endpoint, and the progress
engine posts the head of the queue again, holding the queue's spinlock, with `force_post` set so
that it skips the check for a non-empty backlog. Each `post_*` of the endpoint has one shape
(`post_op`): check the backlog, call the backend, push on a refused call without retries.

The spinlock is not recursive. On a network context without put-with-immediate, posting a
`putImms` entry falls back to a put and then to `post_sends` with retries forbidden and without
`force_post`; the per-rank counter still counts the entry being progressed, so `post_sends` sees
a non-empty backlog and pushes, and `push` spins on the lock its own thread holds
(`progress_spins_on_putImms`). The model runs one thread: `lock` on a held lock never returns,
which `Stuck.spins_on_lock` records. The backend is a parameter: any result for any call. -/

namespace Lci.Backlog

open Machine

/-- `errorcode_t`, without its boundary markers. -/
inductive errorcode_t
  | done
  | done_backlog
  | posted
  | posted_backlog
  | retry
  | retry_init
  | retry_lock
  | retry_nopacket
  | retry_nomem
  | retry_backlog
  | fatal
  deriving DecidableEq, Repr

def errorcode_t.is_done : errorcode_t → Bool
  | .done | .done_backlog => true
  | _ => false

def errorcode_t.is_retry : errorcode_t → Bool
  | .retry | .retry_init | .retry_lock | .retry_nopacket | .retry_nomem | .retry_backlog => true
  | _ => false

inductive backlog_op_t
  | sends
  | send
  | puts
  | put
  | putImms
  | putImm
  | get
  deriving DecidableEq, Repr

/-- A backlog entry: its operation and its target rank. The buffer, the memory regions, the
offset, the immediate data and the user context are passed through untouched. -/
structure backlog_queue_entry_t where
  op : backlog_op_t
  rank : Nat
  deriving DecidableEq, Repr

/-- `backlog_queue_t`: the emptiness hint, the per-rank entry counters, the spinlock and the
queue. -/
structure BacklogQueue where
  empty : Bool
  nentries_per_rank : Nat → Nat
  locked : Bool
  backlog_queue : List backlog_queue_entry_t

/-- A fresh backlog queue. -/
def BacklogQueue.init : BacklogQueue := ⟨true, fun _ => 0, false, []⟩

/-- How a call on the progressing thread fails to return: it spins on the lock it holds, or an
`LCI_Assert` aborts. -/
inductive Stuck
  | spins_on_lock
  | assertion_failed
  deriving DecidableEq, Repr

/-- `spinlock_t::lock` on the thread that runs the queue: a held lock is held by this thread. -/
def lock (q : BacklogQueue) : Except Stuck BacklogQueue :=
  if q.locked then .error .spins_on_lock else .ok { q with locked := true }

def unlock (q : BacklogQueue) : BacklogQueue := { q with locked := false }

/-- The `push_*` family of `backlog_queue_t`: count the entry for its rank, then append it under
the lock and clear the emptiness hint. -/
def push (op : backlog_op_t) (rank : Nat) (q : BacklogQueue) : Except Stuck BacklogQueue := do
  let counts := Function.update q.nentries_per_rank rank (q.nentries_per_rank rank + 1)
  let q ← lock { q with nentries_per_rank := counts }
  pure (unlock { q with backlog_queue := q.backlog_queue ++ [⟨op, rank⟩], empty := false })

/-- The network context of an endpoint: whether it has put-with-immediate, and the result of
each `post_*_impl` of the backend for a given priority. -/
structure Endpoint where
  support_putimm : Bool
  impl : backlog_op_t → Bool → errorcode_t

/-- The shape every `endpoint_impl_t::post_*` has: without `force_post` a non-empty backlog for
the rank refuses the call; otherwise the backend is called with high priority when retries are
forbidden or the post is forced. A refused call without retries is pushed and reports `pushed`. -/
def post_op (impl_call : Bool → BacklogQueue → Except Stuck (errorcode_t × BacklogQueue))
    (op : backlog_op_t) (pushed : errorcode_t) (rank : Nat) (allow_retry force_post : Bool)
    (q : BacklogQueue) : Except Stuck (errorcode_t × BacklogQueue) := do
  let (error, q) ← if !force_post && q.nentries_per_rank rank != 0 then pure (.retry_backlog, q)
    else impl_call (!allow_retry || force_post) q
  if error.is_retry && !allow_retry then
    let q ← push op rank q
    pure (pushed, q)
  else pure (error, q)

section Endpoint

variable (ep : Endpoint)

def post_sends := post_op (fun hp q => pure (ep.impl .sends hp, q)) .sends .done_backlog
def post_send := post_op (fun hp q => pure (ep.impl .send hp, q)) .send .posted_backlog
def post_puts := post_op (fun hp q => pure (ep.impl .puts hp, q)) .puts .done_backlog
def post_put := post_op (fun hp q => pure (ep.impl .put hp, q)) .put .posted_backlog
def post_get := post_op (fun hp q => pure (ep.impl .get hp, q)) .get .posted_backlog

/-- `post_putImms_fallback`: a put, then an empty send that carries the immediate data, with
retries forbidden and without `force_post`. -/
def post_putImms_fallback (rank : Nat) (high_priority : Bool) (q : BacklogQueue) :
    Except Stuck (errorcode_t × BacklogQueue) := do
  let error := ep.impl .puts high_priority
  if !error.is_retry then
    if !error.is_done then throw .assertion_failed
    let (error', q) ← post_sends ep rank false false q
    if !error'.is_done then throw .assertion_failed
    pure (error, q)
  else pure (error, q)

def post_putImms (rank : Nat) :=
  post_op (fun hp q => if ep.support_putimm then pure (ep.impl .putImms hp, q)
    else post_putImms_fallback ep rank hp q) .putImms .done_backlog rank

/-- `post_putImm`; its fallback posts a put with high priority. -/
def post_putImm :=
  post_op (fun hp q => if ep.support_putimm then pure (ep.impl .putImm hp, q)
    else pure (ep.impl .put true, q)) .putImm .posted_backlog

/-- The `post_*` of an operation kind, as the switch of `backlog_queue_t::progress` calls it. -/
def post_by_op (op : backlog_op_t) (rank : Nat) (allow_retry force_post : Bool) :
    BacklogQueue → Except Stuck (errorcode_t × BacklogQueue) :=
  match op with
  | .sends => post_sends ep rank allow_retry force_post
  | .send => post_send ep rank allow_retry force_post
  | .puts => post_puts ep rank allow_retry force_post
  | .put => post_put ep rank allow_retry force_post
  | .putImms => post_putImms ep rank allow_retry force_post
  | .putImm => post_putImm ep rank allow_retry force_post
  | .get => post_get ep rank allow_retry force_post

/-- `backlog_queue_t::progress`: post the head entry again, forced and with retries allowed, and
pop it unless the backend refused it. -/
def progress (q : BacklogQueue) : Except Stuck (Bool × BacklogQueue) :=
  if q.empty then pure (false, q)
  else if q.locked then pure (false, q)
  else
    let q := { q with locked := true }
    match q.backlog_queue with
    | [] => pure (false, unlock { q with empty := true })
    | entry :: _ => do
        let (error, q) ← post_by_op ep entry.op entry.rank true true q
        if !error.is_retry then
          let rest := q.backlog_queue.tail
          let q := { q with backlog_queue := rest, empty := rest.isEmpty || q.empty }
          let counts := Function.update q.nentries_per_rank entry.rank
            (q.nentries_per_rank entry.rank - 1)
          pure (true, unlock { q with nentries_per_rank := counts })
        else pure (false, unlock q)

end Endpoint

/-! ### One call -/

theorem push_of_locked {q : BacklogQueue} (h : q.locked = true) (op : backlog_op_t) (rank : Nat) :
    push op rank q = .error .spins_on_lock := by
  simp [push, lock, h, bind, Except.bind]

/-- Called with retries forbidden while the lock is held, a `post_*` that finds the backlog of
its rank non-empty spins. -/
theorem post_op_spins {impl_call : Bool → BacklogQueue → Except Stuck (errorcode_t × BacklogQueue)}
    {op : backlog_op_t} {pushed : errorcode_t} {rank : Nat} {q : BacklogQueue}
    (hl : q.locked = true) (hn : q.nentries_per_rank rank ≠ 0) :
    post_op impl_call op pushed rank false false q = .error .spins_on_lock := by
  simp [post_op, hn, errorcode_t.is_retry, push_of_locked hl, bind, Except.bind, pure,
    Except.pure]

/-- **Re-entry.** On a context without put-with-immediate, progressing a `putImms` entry whose
put the backend accepts spins on the queue's own lock, whenever the counter of the entry's rank
is not zero. -/
theorem progress_spins_of_count {ep : Endpoint} {q : BacklogQueue} {r : Nat}
    {rest : List backlog_queue_entry_t} (hempty : q.empty = false) (hl : q.locked = false)
    (hhead : q.backlog_queue = ⟨.putImms, r⟩ :: rest) (hn : q.nentries_per_rank r ≠ 0)
    (hs : ep.support_putimm = false) (hd : ep.impl .puts true = .done) :
    progress ep q = .error .spins_on_lock := by
  obtain ⟨empty, counts, locked, entries⟩ := q
  simp only at hempty hl hhead hn
  subst hempty hl hhead
  have hspin : post_sends ep r false false ⟨false, counts, true, ⟨.putImms, r⟩ :: rest⟩ =
      .error .spins_on_lock := post_op_spins rfl hn
  simp [progress, post_by_op, post_putImms, post_op, hs, post_putImms_fallback, hd,
    errorcode_t.is_retry, errorcode_t.is_done, hspin, bind, Except.bind]

/-- Posted by the progress engine, forced and with retries allowed, every entry but a `putImms`
on a context without put-with-immediate returns the backend's answer and changes nothing. -/
theorem post_by_op_forced (ep : Endpoint) {op : backlog_op_t} (rank : Nat) (q : BacklogQueue)
    (hop : op ≠ .putImms ∨ ep.support_putimm = true) :
    ∃ e, post_by_op ep op rank true true q = .ok (e, q) := by
  cases hs : ep.support_putimm <;> cases op <;>
    simp_all [post_by_op, post_sends, post_send, post_puts, post_put, post_get, post_putImms,
      post_putImm, post_op, bind, Except.bind, pure, Except.pure]

/-- Every progress call but that of a `putImms` entry on a context without put-with-immediate
returns. -/
theorem progress_returns (ep : Endpoint) (q : BacklogQueue)
    (hop : (∀ r rest, q.backlog_queue ≠ ⟨.putImms, r⟩ :: rest) ∨ ep.support_putimm = true) :
    ∃ b q', progress ep q = .ok (b, q') := by
  obtain ⟨empty, counts, locked, entries⟩ := q
  cases empty
  case true => exact ⟨false, _, rfl⟩
  cases locked
  case true => exact ⟨false, _, rfl⟩
  cases entries with
  | nil => exact ⟨false, _, rfl⟩
  | cons entry rest =>
      have hentry : entry.op ≠ .putImms ∨ ep.support_putimm = true := by
        rcases hop with hop | hop
        · left
          intro h
          exact hop entry.rank rest (by rw [show entry = ⟨.putImms, entry.rank⟩ by rw [← h]])
        · exact Or.inr hop
      obtain ⟨e, hpost⟩ := post_by_op_forced ep entry.rank ⟨false, counts, true, entry :: rest⟩ hentry
      simp only [progress, Bool.false_eq_true, if_false, hpost, bind, Except.bind]
      split
      · exact ⟨_, _, rfl⟩
      · exact ⟨_, _, rfl⟩

/-! ### The counters over whole runs -/

/-- The invariant of the queue between calls: each rank's counter counts its entries, a
non-empty queue has its emptiness hint cleared, and the lock is free. -/
structure Inv (q : BacklogQueue) : Prop where
  counts : ∀ r, q.nentries_per_rank r = q.backlog_queue.countP (fun e => e.rank == r)
  hint : q.backlog_queue ≠ [] → q.empty = false
  unlocked : q.locked = false

theorem push_inv {q q' : BacklogQueue} {op : backlog_op_t} {rank : Nat} (h : Inv q)
    (hp : push op rank q = .ok q') : Inv q' := by
  simp only [push, lock, h.unlocked, Bool.false_eq_true, if_false, bind, Except.bind, pure,
    Except.pure, Except.ok.injEq] at hp
  subst hp
  refine ⟨fun r => ?_, fun _ => rfl, rfl⟩
  by_cases hr : r = rank
  · subst hr
    simp [unlock, List.countP_append, h.counts]
  · simp [unlock, List.countP_append, h.counts, hr, Ne.symm hr]

/-- A property of the queue that `push` keeps is kept by a `post_*` whose backend call keeps it. -/
theorem post_op_preserves (P : BacklogQueue → Prop)
    {impl_call : Bool → BacklogQueue → Except Stuck (errorcode_t × BacklogQueue)}
    {op : backlog_op_t} {rank : Nat}
    (hpush : ∀ q q', P q → push op rank q = .ok q' → P q')
    (himpl : ∀ hp q q' e, P q → impl_call hp q = .ok (e, q') → P q')
    {pushed : errorcode_t} {allow_retry force_post : Bool} {q q' : BacklogQueue}
    {e : errorcode_t} (h : P q)
    (hp : post_op impl_call op pushed rank allow_retry force_post q = .ok (e, q')) : P q' := by
  have htail : ∀ v : errorcode_t × BacklogQueue, P v.2 →
      (if (v.1.is_retry && !allow_retry) = true then
        Except.bind (push op rank v.2) (fun q => pure (pushed, q)) else pure (v.1, v.2)) =
        .ok (e, q') → P q' := by
    intro v hv0 hv
    split at hv
    · cases hq1 : push op rank v.2 with
      | error => simp [hq1, Except.bind] at hv
      | ok q1 =>
          simp only [hq1, Except.bind, pure, Except.pure, Except.ok.injEq, Prod.mk.injEq] at hv
          exact hv.2 ▸ hpush _ _ hv0 hq1
    · simp only [pure, Except.pure, Except.ok.injEq, Prod.mk.injEq] at hv
      exact hv.2 ▸ hv0
  simp only [post_op, bind, Except.bind] at hp
  split at hp
  · exact htail _ h hp
  · split at hp
    · contradiction
    · rename_i v hv
      exact htail v (himpl _ _ _ _ h hv) hp

theorem pure_impl_preserves (P : BacklogQueue → Prop) (f : Bool → errorcode_t) (hp : Bool)
    (q q' : BacklogQueue) (e : errorcode_t) (h : P q)
    (he : (pure (f hp, q) : Except Stuck (errorcode_t × BacklogQueue)) = .ok (e, q')) : P q' := by
  simp only [pure, Except.pure, Except.ok.injEq, Prod.mk.injEq] at he
  exact he.2 ▸ h

section Preserves

variable (P : BacklogQueue → Prop) (hpush : ∀ op rank q q', P q → push op rank q = .ok q' → P q')
include hpush

theorem post_putImms_fallback_preserves (ep : Endpoint) {rank : Nat} {hp : Bool}
    {q q' : BacklogQueue} {e : errorcode_t} (h : P q)
    (he : post_putImms_fallback ep rank hp q = .ok (e, q')) : P q' := by
  simp only [post_putImms_fallback, bind, Except.bind] at he
  split at he
  · split at he
    · simp [throw, throwThe, MonadExceptOf.throw] at he
    · split at he
      · contradiction
      · rename_i v hv
        have hv' := post_op_preserves P (hpush _ _) (pure_impl_preserves P _) h hv
        split at he
        · simp [throw, throwThe, MonadExceptOf.throw] at he
        · simp only [pure, Except.pure, Except.ok.injEq, Prod.mk.injEq] at he
          exact he.2 ▸ hv'
  · simp only [pure, Except.pure, Except.ok.injEq, Prod.mk.injEq] at he
    exact he.2 ▸ h

theorem post_by_op_preserves (ep : Endpoint) {op : backlog_op_t} {rank : Nat}
    {allow_retry force_post : Bool} {q q' : BacklogQueue} {e : errorcode_t} (h : P q)
    (hp : post_by_op ep op rank allow_retry force_post q = .ok (e, q')) : P q' := by
  cases op
  case putImms =>
    simp only [post_by_op, post_putImms] at hp
    refine post_op_preserves P (hpush _ _) (fun b q q' e hq he => ?_) h hp
    split at he
    · exact pure_impl_preserves P _ b q q' e hq he
    · exact post_putImms_fallback_preserves P hpush ep hq he
  case putImm =>
    simp only [post_by_op, post_putImm] at hp
    refine post_op_preserves P (hpush _ _) (fun b q q' e hq he => ?_) h hp
    split at he
    · exact pure_impl_preserves P _ b q q' e hq he
    · exact pure_impl_preserves P (fun _ => ep.impl .put true) b q q' e hq he
  all_goals exact post_op_preserves P (hpush _ _) (pure_impl_preserves P _) h hp

end Preserves

/-- While the lock is held, a `post_*` that returns has changed nothing: a push would spin. -/
theorem post_by_op_locked (ep : Endpoint) {op : backlog_op_t} {rank : Nat}
    {allow_retry force_post : Bool} {q q' : BacklogQueue} {e : errorcode_t} (hl : q.locked = true)
    (hp : post_by_op ep op rank allow_retry force_post q = .ok (e, q')) : q' = q := by
  refine post_by_op_preserves (fun q'' => q'' = q) (fun op rank q1 q2 h1 h2 => ?_) ep rfl hp
  subst h1
  simp [push_of_locked hl] at h2

theorem progress_inv (ep : Endpoint) {q q' : BacklogQueue} {b : Bool} (h : Inv q)
    (hp : progress ep q = .ok (b, q')) : Inv q' := by
  obtain ⟨empty, counts, locked, entries⟩ := q
  have hl : locked = false := h.unlocked
  subst hl
  cases empty
  case true =>
    simp only [progress, if_true, pure, Except.pure, Except.ok.injEq, Prod.mk.injEq] at hp
    exact hp.2 ▸ h
  cases entries with
  | nil =>
      simp only [progress, Bool.false_eq_true, if_false, pure, Except.pure, Except.ok.injEq,
        Prod.mk.injEq] at hp
      rw [← hp.2]
      exact ⟨fun r => h.counts r, fun hne => absurd rfl hne, rfl⟩
  | cons entry rest =>
      have hc : ∀ r, counts r = (entry :: rest).countP (fun e => e.rank == r) := h.counts
      simp only [progress, Bool.false_eq_true, if_false, bind, Except.bind] at hp
      split at hp
      · contradiction
      · rename_i v hv
        have hv2 := post_by_op_locked ep rfl hv
        split at hp
        · simp only [pure, Except.pure, Except.ok.injEq, Prod.mk.injEq] at hp
          rw [← hp.2, hv2]
          refine ⟨fun r => ?_, fun hne => ?_, rfl⟩
          · by_cases hr : r = entry.rank
            · subst hr
              simp [unlock, hc entry.rank]
            · simp [unlock, hc r, hr, Ne.symm hr]
          · cases rest with
            | nil => simp [unlock] at hne
            | cons => rfl
        · simp only [pure, Except.pure, Except.ok.injEq, Prod.mk.injEq] at hp
          rw [← hp.2, hv2]
          exact ⟨h.counts, h.hint, rfl⟩

/-- A call of the application on the endpoint: a post of some kind, with or without retries, or a
progress of the backlog queue. -/
inductive Call
  | post (op : backlog_op_t) (rank : Nat) (allow_retry : Bool)
  | progress

/-- One call on the queue, on an endpoint whose backend answers as `ep` says. -/
def step (ep : Endpoint) (q : BacklogQueue) : Call → Except Stuck BacklogQueue
  | .post op rank allow_retry => (post_by_op ep op rank allow_retry false q).map Prod.snd
  | .progress => (progress ep q).map Prod.snd

/-- The states a fresh queue reaches by calls that return, whatever the backend answers. -/
def Reachable : BacklogQueue → Prop :=
  Machine.Reachable (· = BacklogQueue.init) (fun q q' => ∃ ep c, step ep q c = .ok q')

theorem init_inv : Inv BacklogQueue.init := ⟨fun _ => rfl, fun h => absurd rfl h, rfl⟩

theorem map_snd_eq_ok {α : Type} {x : Except Stuck (α × BacklogQueue)} {q' : BacklogQueue}
    (h : x.map Prod.snd = .ok q') : ∃ a, x = .ok (a, q') := by
  cases x with
  | error => simp [Except.map] at h
  | ok v =>
      simp only [Except.map, Except.ok.injEq] at h
      exact ⟨v.1, by rw [← h]⟩

theorem step_inv {ep : Endpoint} {q q' : BacklogQueue} {c : Call} (h : Inv q)
    (hs : step ep q c = .ok q') : Inv q' := by
  cases c with
  | post op rank allow_retry =>
      obtain ⟨e, he⟩ := map_snd_eq_ok hs
      exact post_by_op_preserves Inv (fun _ _ _ _ => push_inv) ep h he
  | progress =>
      obtain ⟨b, hb⟩ := map_snd_eq_ok hs
      exact progress_inv ep h hb

theorem reachable_inv {q : BacklogQueue} (h : Reachable q) : Inv q := by
  refine Machine.Reachable.induction_inv ?_ ?_ h
  · rintro _ rfl
    exact init_inv
  · rintro q q' hq ⟨ep, c, hs⟩
    exact step_inv hq hs

/-- **The backlog queue re-enters its own lock.** In every reachable state whose head entry is a
`putImms`, progressing the queue on a context without put-with-immediate, whose backend accepts
the fallback put, spins forever on the queue's spinlock. -/
theorem progress_spins_on_putImms {q : BacklogQueue} (hq : Reachable q) {r : Nat}
    {rest : List backlog_queue_entry_t} (hhead : q.backlog_queue = ⟨.putImms, r⟩ :: rest)
    {ep : Endpoint} (hs : ep.support_putimm = false) (hd : ep.impl .puts true = .done) :
    progress ep q = .error .spins_on_lock := by
  have hinv := reachable_inv hq
  have hcount : q.nentries_per_rank r ≠ 0 := by
    rw [hinv.counts r, hhead]
    simp
  exact progress_spins_of_count (hinv.hint (by simp [hhead])) hinv.unlocked hhead hcount hs hd

/-- A `putImms` refused once without retries, then progressed after the network accepts the put,
on a context without put-with-immediate. -/
theorem putImms_entry_spins :
    Reachable ⟨false, Function.update (fun _ => 0) 0 1, false, [⟨.putImms, 0⟩]⟩ ∧
      progress ⟨false, fun _ _ => .done⟩
        ⟨false, Function.update (fun _ => 0) 0 1, false, [⟨.putImms, 0⟩]⟩ = .error .spins_on_lock :=
  have hq : Reachable ⟨false, Function.update (fun _ => 0) 0 1, false, [⟨.putImms, 0⟩]⟩ :=
    Machine.Reachable.step (Machine.Reachable.init rfl)
      ⟨⟨false, fun _ _ => .retry_nomem⟩, .post .putImms 0 false, rfl⟩
  ⟨hq, progress_spins_on_putImms hq rfl rfl rfl⟩

/-- A send that the backend refuses for lack of resources is pushed; the progress engine then
posts it and returns, on a context without put-with-immediate. -/
theorem progress_returns_send :
    Reachable ⟨false, Function.update (fun _ => 0) 0 1, false, [⟨.send, 0⟩]⟩ ∧
      (∀ r rest, ([⟨.send, 0⟩] : List backlog_queue_entry_t) ≠ ⟨.putImms, r⟩ :: rest) ∧
      ∃ b q', progress ⟨false, fun _ _ => .done⟩
        ⟨false, Function.update (fun _ => 0) 0 1, false, [⟨.send, 0⟩]⟩ = .ok (b, q') :=
  have hq : Reachable ⟨false, Function.update (fun _ => 0) 0 1, false, [⟨.send, 0⟩]⟩ :=
    Machine.Reachable.step (Machine.Reachable.init rfl)
      ⟨⟨false, fun _ _ => .retry_nomem⟩, .post .send 0 false, rfl⟩
  have hhead : ∀ r rest, ([⟨.send, 0⟩] : List backlog_queue_entry_t) ≠ ⟨.putImms, r⟩ :: rest :=
    fun _ _ h => by simp at h
  ⟨hq, hhead, progress_returns _ _ (.inl hhead)⟩

end Lci.Backlog
