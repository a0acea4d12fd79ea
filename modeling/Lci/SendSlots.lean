import Lci.Backlog

/-! The send slots of one verbs queue pair (`ibv_endpoint_impl_t::try_acquire_slot`,
`release_slot`, the `post_*_impl` functions and the slot release in
`ibv_device_impl_t::poll_comp_impl`), as threads interleaving their atomic steps on the counter
`qp_remaining_slots[rank]` of one endpoint and one peer rank. Every `post_*_impl` takes a slot,
tries the queue pair's lock, posts one work request and gives the slot back on every path that
does not post; they differ only in the work request they build and in the code a successful post
returns. A low-priority call first loads the counter and gives up at or below the threshold
`static_cast<int>(net_max_sends * net_send_reserved_pct)`. The send-side completion of a posted
request, successful or failed, adds the slot back through the entry `qp2rank_map` gives for the
queue pair.

The ghost `outstanding` counts the requests posted and not yet completed, `returned` records
what each call returned, and `low_takes` records, for each slot a low-priority call took, the
counter it had loaded and the counter its `fetch_sub` found. -/

namespace Lci.SendSlots

open Backlog Machine

/-- What `ibv_post_send` returns: `0`, `ENOMEM` or another error. -/
inductive post_ret
  | ok
  | ENOMEM
  | error
  deriving DecidableEq, Repr

/-- What a successful post returns: `done` for the inline variants, `posted` for the others. -/
def post_success : backlog_op_t → errorcode_t
  | .sends | .puts | .putImms => .done
  | .send | .put | .putImm | .get => .posted

/-- Where a thread is in a `post_*_impl` call: before the `fetch_sub` of `try_acquire_slot`
(with the counter a low-priority call loaded), before giving back a decrement that found no
slot, holding a slot, holding the lock, after `ibv_post_send`, and before `release_slot`. -/
inductive Pc
  | idle
  | acquiring (op : backlog_op_t) (high_priority : Bool) (seen : Int)
  | giving_back (op : backlog_op_t)
  | acquired (op : backlog_op_t)
  | locked (op : backlog_op_t)
  | unlocking (op : backlog_op_t) (ret : post_ret)
  | releasing (op : backlog_op_t) (code : errorcode_t)

/-- The slot counter, the queue pair's lock, the threads `T` and the ghost record. -/
structure State (T : Type) where
  counter : Int
  qp_lock : Bool
  outstanding : Nat
  pc : T → Pc
  returned : List (backlog_op_t × errorcode_t)
  low_takes : List (Int × Int)

/-- A thread calls `post_*_impl` for `op`, takes its next step, or `ibv_post_send` returns
`ret` to it; or the completion of a posted request is polled. -/
inductive Action (T : Type)
  | call (t : T) (op : backlog_op_t) (high_priority : Bool)
  | step (t : T)
  | post (t : T) (ret : post_ret)
  | complete

section Model

variable {T : Type} [DecidableEq T]

/-- The endpoint's constructor: `net_max_sends` slots. -/
def State.init (net_max_sends : Nat) : State T :=
  ⟨net_max_sends, false, 0, fun _ => .idle, [], []⟩

def State.setPc (s : State T) (t : T) (pc : Pc) : State T :=
  { s with pc := Function.update s.pc t pc }

def State.ret (s : State T) (t : T) (op : backlog_op_t) (code : errorcode_t) : State T :=
  { s.setPc t .idle with returned := s.returned ++ [(op, code)] }

variable (threshold : Int)

/-- One atomic step; `threshold` is `static_cast<int>(net_max_sends * net_send_reserved_pct)`. -/
def step (s : State T) : Action T → Option (State T)
  | .call t op high_priority =>
    match s.pc t with
    | .idle =>
      if !high_priority && decide (s.counter ≤ threshold) then some (s.ret t op .retry_nomem)
      else some (s.setPc t (.acquiring op high_priority s.counter))
    | _ => none
  | .step t =>
    match s.pc t with
    | .acquiring op high_priority seen =>
      let prev := s.counter
      if prev ≤ 0 then some { s.setPc t (.giving_back op) with counter := prev - 1 }
      else
        some { s.setPc t (.acquired op) with
          counter := prev - 1
          low_takes := if high_priority then s.low_takes else s.low_takes ++ [(seen, prev)] }
    | .giving_back op => some { s.ret t op .retry_nomem with counter := s.counter + 1 }
    | .acquired op =>
      if s.qp_lock then some (s.setPc t (.releasing op .retry_lock))
      else some { s.setPc t (.locked op) with qp_lock := true }
    | .unlocking op ret =>
      let s' := { s with qp_lock := false }
      match ret with
      | .ok => some (s'.ret t op (post_success op))
      | .ENOMEM => some (s'.setPc t (.releasing op .retry_nomem))
      | .error => some (s'.setPc t (.releasing op .fatal))
    | .releasing op code => some { s.ret t op code with counter := s.counter + 1 }
    | _ => none
  | .post t ret =>
    match s.pc t with
    | .locked op =>
      some { s.setPc t (.unlocking op ret) with
        outstanding := if ret = .ok then s.outstanding + 1 else s.outstanding }
    | _ => none
  | .complete =>
    if 0 < s.outstanding then
      some { s with
        outstanding := s.outstanding - 1
        counter := s.counter + 1 }
    else none

def Reachable (net_max_sends : Nat) : State T → Prop :=
  Machine.Reachable (· = State.init net_max_sends) (fun s s' => ∃ a, step threshold s a = some s')

end Model

section Race

variable {threshold : Int}

theorem post_send_posts {c : Int} (hc : 0 < c) (o : Nat) (ret : List (backlog_op_t × errorcode_t)) :
    [Action.call 0 .send true, .step 0, .step 0, .post 0 .ok, .step 0].foldlM (step threshold)
        (⟨c, false, o, fun _ => .idle, ret, []⟩ : State (Fin 2)) =
      some ⟨c - 1, false, o + 1, fun _ => .idle, ret ++ [(.send, .posted)], []⟩ := by
  have hc' : ¬ c ≤ 0 := by omega
  simp [step, State.setPc, State.ret, hc', post_success]

theorem post_sends_post (n : Nat) {c : Int} (hc : n ≤ c) (o : Nat)
    (ret : List (backlog_op_t × errorcode_t)) :
    (List.replicate n [Action.call 0 .send true, .step 0, .step 0, .post 0 .ok, .step 0]).flatten.foldlM
        (step threshold) (⟨c, false, o, fun _ => .idle, ret, []⟩ : State (Fin 2)) =
      some ⟨c - n, false, o + n, fun _ => .idle, ret ++ List.replicate n (.send, .posted), []⟩ := by
  induction n generalizing c o ret with
  | zero => simp
  | succ n ih =>
    rw [List.replicate_succ, List.flatten_cons, List.foldlM_append, post_send_posts (by omega)]
    simp only [bind, Option.bind]
    rw [ih (by omega)]
    simp only [List.replicate_succ, List.append_assoc, List.singleton_append]
    congr 2 <;> push_cast <;> omega

/-- **The reserved slots are not reserved.** Whenever the threshold reserves a slot, two
low-priority calls made once the counter is one above the threshold both load it, pass the
check, and both take a slot: the second takes one the threshold reserves. -/
theorem low_priority_takes_reserved_slot {net_max_sends : Nat} (h1 : 1 ≤ threshold)
    (h2 : threshold < net_max_sends) :
    ∃ s : State (Fin 2), Reachable threshold net_max_sends s ∧
      ∃ x ∈ s.low_takes, threshold < x.1 ∧ x.2 ≤ threshold := by
  obtain ⟨n, hn⟩ : ∃ n : Nat, (net_max_sends : Int) - n = threshold + 1 :=
    ⟨(net_max_sends - threshold - 1).toNat, by omega⟩
  have hposts := @post_sends_post threshold n net_max_sends (by omega) 0 []
  rw [hn] at hposts
  have hrace : ∃ s, ((List.replicate n [Action.call (0 : Fin 2) .send true, .step 0, .step 0,
      .post 0 .ok, .step 0]).flatten ++
      ([.call 0 .send false, .call 1 .send false, .step 0, .step 1] : List (Action (Fin 2)))).foldlM
        (step threshold) (State.init net_max_sends : State (Fin 2)) = some s ∧
      (threshold + 1, threshold) ∈ s.low_takes := by
    have hle : ¬ threshold + 1 ≤ threshold := by omega
    have hpos : ¬ threshold + 1 ≤ 0 := by omega
    have hpos' : ¬ threshold ≤ 0 := by omega
    rw [List.foldlM_append, show (State.init net_max_sends : State (Fin 2)) =
      ⟨net_max_sends, false, 0, fun _ => .idle, [], []⟩ from rfl, hposts]
    simp [step, State.setPc, hle, hpos, hpos']
  obtain ⟨s, hs, hmem⟩ := hrace
  exact ⟨s, Machine.Reachable.of_foldlM (.init rfl) _ hs, _, hmem, by omega, le_refl _⟩

/-- At the defaults, 64 slots with a quarter reserved: `static_cast<int>(64 * 0.25)` is 16. -/
theorem low_priority_takes_reserved_slot_defaults :
    1 ≤ (16 : Int) ∧ (16 : Int) < ((64 : Nat) : Int) ∧
      ∃ s : State (Fin 2), Reachable 16 64 s ∧ ∃ x ∈ s.low_takes, 16 < x.1 ∧ x.2 ≤ 16 :=
  ⟨by decide, by decide, low_priority_takes_reserved_slot (by decide) (by decide)⟩

end Race

section Shares

/-- The slots a thread's call holds: from its `fetch_sub` until it posts or gives the slot back. -/
def holding : Pc → Nat
  | .giving_back _ | .acquired _ | .locked _ | .releasing _ _ => 1
  | .unlocking _ ret => if ret = .ok then 0 else 1
  | _ => 0

/-- A decrement that found no slot and is about to be given back. -/
def tentative : Pc → Nat
  | .giving_back _ => 1
  | _ => 0

/-- A low-priority call past the threshold check loaded a counter above the threshold. -/
def SeenAbove (threshold : Int) : Pc → Prop
  | .acquiring _ false seen => threshold < seen
  | _ => True

theorem tentative_le_holding (pc : Pc) : tentative pc ≤ holding pc := by
  cases pc <;> simp [tentative, holding]

end Shares

section Run

variable {T : Type} [Fintype T] {threshold : Int} {net_max_sends : Nat}

/-- What holds between any two steps: the counter, the outstanding requests and the slots the
calls hold make `net_max_sends`; the counter with the decrements about to be given back is never
negative; and every slot a low-priority call took followed a load above the threshold. -/
structure Inv (threshold : Int) (net_max_sends : Nat) (s : State T) : Prop where
  slots : s.counter + s.outstanding + (∑ t, holding (s.pc t) : Nat) = net_max_sends
  nonneg : 0 ≤ s.counter + (∑ t, tentative (s.pc t) : Nat)
  seen : ∀ t, SeenAbove threshold (s.pc t)
  low_takes : ∀ x ∈ s.low_takes, threshold < x.1

theorem init_inv : Inv threshold net_max_sends (State.init net_max_sends : State T) where
  slots := by simp [State.init, holding]
  nonneg := by simp [State.init, tentative]
  seen _ := trivial
  low_takes := by simp [State.init]

theorem Inv.outstanding_le {s : State T} (hi : Inv threshold net_max_sends s) :
    s.outstanding ≤ net_max_sends := by
  have hle : ∑ t, tentative (s.pc t) ≤ ∑ t, holding (s.pc t) :=
    Finset.sum_le_sum fun t _ => tentative_le_holding (s.pc t)
  have hslots := hi.slots
  have hnonneg := hi.nonneg
  omega

variable [DecidableEq T]

/-- **A step of one call.** Thread `t` moves to `p'` and the counter, the lock, the outstanding
requests and the records are replaced: the invariant is kept when the slots balance, the counter
with the pending give-backs does not fall or the new counter is not negative, and a slot a
low-priority call takes followed a load above the threshold. -/
theorem Inv.update {s : State T} (hi : Inv threshold net_max_sends s) {t : T} {p' : Pc}
    {c' : Int} {lk' : Bool} {o' : Nat} {r' : List (backlog_op_t × errorcode_t)}
    {lt' : List (Int × Int)} (hw : SeenAbove threshold p')
    (hc : c' + o' + holding p' = s.counter + s.outstanding + holding (s.pc t))
    (hn : s.counter + tentative (s.pc t) ≤ c' + tentative p' ∨ 0 ≤ c')
    (hl : ∀ x ∈ lt', threshold < x.1) :
    Inv threshold net_max_sends ⟨c', lk', o', Function.update s.pc t p', r', lt'⟩ := by
  have hhold := sum_update_add (Finset.mem_univ t) holding s.pc p'
  have htent := sum_update_add (Finset.mem_univ t) tentative s.pc p'
  have hslots := hi.slots
  have hnonneg := hi.nonneg
  have hle : tentative (s.pc t) ≤ ∑ t, tentative (s.pc t) :=
    Finset.single_le_sum (f := fun t => tentative (s.pc t)) (fun t _ => Nat.zero_le _)
      (Finset.mem_univ t)
  constructor
  case slots =>
    dsimp only
    omega
  case nonneg =>
    dsimp only
    omega
  case seen =>
    intro t'
    by_cases ht : t' = t
    · subst ht
      simpa using hw
    · simpa [Function.update_of_ne ht] using hi.seen t'
  case low_takes => exact hl

/-- **Every step keeps the invariant.** -/
theorem Inv.of_step {s s' : State T} (hi : Inv threshold net_max_sends s) {a : Action T}
    (h : step threshold s a = some s') : Inv threshold net_max_sends s' := by
  cases a with
  | call t op high_priority =>
    cases hpc : s.pc t with
    | idle =>
      simp only [step, hpc, State.ret, State.setPc] at h
      split_ifs at h with hcheck
      · cases h
        exact hi.update trivial (by simp [hpc, holding]) (by simp [hpc, tentative]) hi.low_takes
      · cases h
        refine hi.update ?_ (by simp [hpc, holding]) (by simp [hpc, tentative]) hi.low_takes
        cases high_priority
        · simpa [SeenAbove] using hcheck
        · trivial
    | _ => simp [step, hpc] at h
  | step t =>
    have hseen := hi.seen t
    cases hpc : s.pc t with
    | acquiring op high_priority seen =>
      simp only [step, hpc, State.setPc] at h
      split_ifs at h with hprev hhp
      · cases h
        exact hi.update trivial (by simp [hpc, holding]; omega) (by simp [hpc, tentative])
          hi.low_takes
      · cases h
        exact hi.update trivial (by simp [hpc, holding]; omega) (Or.inr (by omega)) hi.low_takes
      · cases h
        refine hi.update trivial (by simp [hpc, holding]; omega) (Or.inr (by omega)) ?_
        rw [hpc, Bool.eq_false_iff.mpr hhp] at hseen
        intro x hx
        rcases List.mem_append.mp hx with hx | hx
        · exact hi.low_takes x hx
        · rw [List.mem_singleton.mp hx]
          exact hseen
    | giving_back op =>
      simp only [step, hpc, State.ret, State.setPc] at h
      cases h
      exact hi.update trivial (by simp [hpc, holding]; omega) (by simp [hpc, tentative])
        hi.low_takes
    | acquired op =>
      simp only [step, hpc, State.setPc] at h
      split_ifs at h
      · cases h
        exact hi.update trivial (by simp [hpc, holding]) (by simp [hpc, tentative]) hi.low_takes
      · cases h
        exact hi.update trivial (by simp [hpc, holding]) (by simp [hpc, tentative]) hi.low_takes
    | unlocking op ret =>
      cases ret with
      | ok =>
        simp only [step, hpc, State.ret, State.setPc] at h
        cases h
        exact hi.update trivial (by simp [hpc, holding]) (by simp [hpc, tentative]) hi.low_takes
      | ENOMEM =>
        simp only [step, hpc, State.setPc] at h
        cases h
        exact hi.update trivial (by simp [hpc, holding]) (by simp [hpc, tentative]) hi.low_takes
      | error =>
        simp only [step, hpc, State.setPc] at h
        cases h
        exact hi.update trivial (by simp [hpc, holding]) (by simp [hpc, tentative]) hi.low_takes
    | releasing op code =>
      simp only [step, hpc, State.ret, State.setPc] at h
      cases h
      exact hi.update trivial (by simp [hpc, holding]; omega) (by simp [hpc, tentative])
        hi.low_takes
    | _ => simp [step, hpc] at h
  | post t ret =>
    cases hpc : s.pc t with
    | locked op =>
      simp only [step, hpc, State.setPc] at h
      cases h
      refine hi.update trivial ?_ (by simp [hpc, tentative]) hi.low_takes
      cases ret with
      | ok =>
        simp only [hpc, holding, if_true, Nat.cast_add, Nat.cast_one, Nat.cast_zero]
        omega
      | ENOMEM => simp [hpc, holding]
      | error => simp [hpc, holding]
    | _ => simp [step, hpc] at h
  | complete =>
    simp only [step] at h
    split_ifs at h with hpos
    cases h
    have hslots := hi.slots
    have hnonneg := hi.nonneg
    exact ⟨by dsimp only; omega, by dsimp only; omega, hi.seen, hi.low_takes⟩

theorem Reachable.inv {s : State T} (hs : Reachable threshold net_max_sends s) :
    Inv threshold net_max_sends s :=
  hs.induction_inv (fun _ h => h ▸ init_inv) fun _ _ hi ⟨_, h⟩ => hi.of_step h

/-- **Send-slot conservation.** In every reachable state of one endpoint's slots for one peer,
the counter, the requests posted and not yet completed and the slots held by calls that have
decremented the counter and neither posted nor given it back make `net_max_sends`; once every
call has returned, the counter and the outstanding requests alone make it, so every path that
does not post gave its slot back; at most `net_max_sends` requests are outstanding; a completion
finds the counter below `net_max_sends`, so the debug assertion of `poll_comp_impl` holds; and
every slot a low-priority call took followed a load of the counter above the threshold. -/
theorem send_slots_balance {s : State T} (hs : Reachable threshold net_max_sends s) :
    s.counter + s.outstanding + (∑ t, holding (s.pc t) : Nat) = net_max_sends ∧
      ((∀ t, s.pc t = .idle) → s.counter + s.outstanding = net_max_sends) ∧
      s.outstanding ≤ net_max_sends ∧
      (0 < s.outstanding → s.counter < net_max_sends) ∧
      ∀ x ∈ s.low_takes, threshold < x.1 := by
  have hi := hs.inv
  have hslots := hi.slots
  refine ⟨hslots, fun hidle => ?_, hi.outstanding_le, fun hpos => by omega, hi.low_takes⟩
  simpa [hidle, holding] using hslots

end Run

/-- Two threads on three slots with one reserved: a high-priority send takes a slot and the
lock; a low-priority put loads two, takes a slot, finds the lock held and gives the slot back;
the send posts; a low-priority send takes a slot and is still in its call when the first send
completes. -/
def two_thread_run : List (Action (Fin 2)) :=
  [.call 0 .send true, .step 0, .call 1 .put false, .step 0, .step 1, .step 1, .post 0 .ok,
    .step 1, .step 0, .call 1 .send false, .step 1, .complete]

def two_thread_state : State (Fin 2) :=
  (two_thread_run.foldlM (step 1) (State.init 3)).getD (State.init 3)

theorem send_slots_balance_two_threads :
    let s := two_thread_state
    Reachable 1 3 s ∧ s.counter = 2 ∧ s.outstanding = 0 ∧ s.pc 1 = .acquired .send ∧
      s.returned = [(.put, .retry_lock), (.send, .posted)] ∧ s.low_takes = [(2, 2), (2, 2)] ∧
      (s.counter + s.outstanding + (∑ t, holding (s.pc t) : Nat) = 3 ∧
        ((∀ t, s.pc t = .idle) → s.counter + s.outstanding = 3) ∧
        s.outstanding ≤ 3 ∧
        (0 < s.outstanding → s.counter < 3) ∧
        ∀ x ∈ s.low_takes, 1 < x.1) :=
  have h0 : Reachable 1 3 (State.init 3 : State (Fin 2)) := .init rfl
  have hs : Reachable 1 3 two_thread_state :=
    Machine.Reachable.of_foldlM_isSome h0 two_thread_run (by decide +kernel)
  ⟨hs, by decide +kernel, by decide +kernel, rfl, by decide +kernel, by decide +kernel,
    send_slots_balance hs⟩

end Lci.SendSlots
