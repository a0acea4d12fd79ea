import Lci.Machine

/-! The receives a device keeps posted (`device_impl_t::post_recv_packets`, `refill_recvs` and
`consume_recvs`), as threads interleaving their atomic steps. A call of `post_recv_packets` loads
`nrecvs_posted` and returns when it has reached `net_max_recvs`; otherwise it reserves a whole
`BATCH_SIZE` with `fetch_add`, gives it back and returns if its position is past the limit,
pops at most `min (net_max_recvs - my_position) BATCH_SIZE` packets from the pool, posts the first
`n_posted` of them, puts the others back and gives back `BATCH_SIZE - n_posted`. A receive that
completes is counted off by `consume_recvs(1)`. `refill_recvs` is a loop of such calls whose
threshold only decides whether it makes one more, so any thread may start a call at any time.

Packets are of any type and the pool, the posted receives and the ghost record of the completed
ones are multisets. `nrecvs_posted` is a `size_t` and a natural number here: `Inv.counter` shows
that every subtraction takes at most what the counter holds, so none of them wraps. -/

namespace Lci.PostRecv

open Machine

/-- Where a thread is in `post_recv_packets`: past the load of `nrecvs_posted`, after `fetch_add`
returned `my_position`, after `get_n` popped `packets`, after `post_recvs` posted `n_posted` of
them with `rest` to put back, and after the put-back loop. -/
inductive Pc (P : Type)
  | idle
  | loaded
  | reserved (my_position : Nat)
  | popped (packets : List P)
  | posted (n_posted : Nat) (rest : List P)
  | put_back (n_posted : Nat)

/-- The counter, the packet pool, the posted receives, the threads `T`, and the ghost record of
the receives that completed. -/
structure State (P T : Type) where
  nrecvs_posted : Nat
  pool : Multiset P
  posted : Multiset P
  completed : Multiset P
  pc : T → Pc P

/-- A thread's next step, `get_n` popping `packets`, `post_recvs` posting `n_posted` of the
packets popped, or the completion of the posted receive of packet `x`. -/
inductive Action (P T : Type)
  | step (t : T)
  | get_n (t : T) (packets : List P)
  | post (t : T) (n_posted : Nat)
  | complete (x : P)

section Model

variable {P T : Type} [DecidableEq P] [DecidableEq T]

def State.init (pool : Multiset P) : State P T := ⟨0, pool, 0, 0, fun _ => .idle⟩

def State.setPc (s : State P T) (t : T) (pc : Pc P) : State P T :=
  { s with pc := Function.update s.pc t pc }

variable (net_max_recvs BATCH_SIZE : Nat)

/-- One atomic step of `post_recv_packets` or a completion with its `consume_recvs(1)`. -/
def step (s : State P T) : Action P T → Option (State P T)
  | .step t =>
    match s.pc t with
    | .idle => if s.nrecvs_posted ≥ net_max_recvs then some s else some (s.setPc t .loaded)
    | .loaded =>
      some { s.setPc t (.reserved s.nrecvs_posted) with
        nrecvs_posted := s.nrecvs_posted + BATCH_SIZE }
    | .reserved my_position =>
      if my_position ≥ net_max_recvs then
        some { s.setPc t .idle with nrecvs_posted := s.nrecvs_posted - BATCH_SIZE }
      else none
    | .popped [] => some { s.setPc t .idle with nrecvs_posted := s.nrecvs_posted - BATCH_SIZE }
    | .popped (_ :: _) => none
    | .posted n_posted rest => some { s.setPc t (.put_back n_posted) with pool := s.pool + rest }
    | .put_back n_posted =>
      some { s.setPc t .idle with
        nrecvs_posted :=
          if BATCH_SIZE ≠ n_posted then s.nrecvs_posted - (BATCH_SIZE - n_posted)
          else s.nrecvs_posted }
  | .get_n t packets =>
    match s.pc t with
    | .reserved my_position =>
      if my_position < net_max_recvs ∧
          packets.length ≤ min (net_max_recvs - my_position) BATCH_SIZE ∧
          (packets : Multiset P) ≤ s.pool then
        some { s.setPc t (.popped packets) with pool := s.pool - packets }
      else none
    | _ => none
  | .post t n_posted =>
    match s.pc t with
    | .popped packets =>
      if packets ≠ [] ∧ n_posted ≤ packets.length then
        some { s.setPc t (.posted n_posted (packets.drop n_posted)) with
          posted := s.posted + (packets.take n_posted : Multiset P) }
      else none
    | _ => none
  | .complete x =>
    if x ∈ s.posted then
      some { s with
        nrecvs_posted := s.nrecvs_posted - 1
        posted := s.posted.erase x
        completed := x ::ₘ s.completed }
    else none

def Reachable (pool : Multiset P) : State P T → Prop :=
  Machine.Reachable (· = State.init pool)
    (fun s s' => ∃ a, step net_max_recvs BATCH_SIZE s a = some s')

end Model

section Shares

variable {P : Type} (net_max_recvs BATCH_SIZE : Nat)

/-- What a thread's call holds of the counter: its batch, less what it posted. -/
def reservation : Pc P → Nat
  | .reserved _ | .popped _ => BATCH_SIZE
  | .posted n_posted _ | .put_back n_posted => BATCH_SIZE - n_posted
  | _ => 0

/-- How many receives a thread's call may still post. -/
def pending : Pc P → Nat
  | .reserved my_position => min (net_max_recvs - my_position) BATCH_SIZE
  | .popped packets => packets.length
  | _ => 0

/-- The packets a thread's call holds: popped, and not yet posted or put back. -/
def held : Pc P → Multiset P
  | .popped packets => packets
  | .posted _ rest => rest
  | _ => 0

def WithinBatch : Pc P → Prop
  | .popped packets => packets.length ≤ BATCH_SIZE
  | .posted n_posted _ | .put_back n_posted => n_posted ≤ BATCH_SIZE
  | _ => True

theorem pending_le_reservation {pc : Pc P} (h : WithinBatch BATCH_SIZE pc) :
    pending net_max_recvs BATCH_SIZE pc ≤ reservation BATCH_SIZE pc := by
  cases pc with
  | reserved my_position => exact min_le_right _ _
  | popped packets => exact h
  | _ => simp [pending]

end Shares

section Run

variable {P T : Type} [Fintype T] {net_max_recvs BATCH_SIZE : Nat} {pool : Multiset P}

/-- What holds between any two steps: the counter is the posted receives and every call's
reservation; the posted receives and what the calls may still post fit `net_max_recvs`; and every
packet of the pool is in the pool, posted, completed or held by one call. -/
structure Inv (net_max_recvs BATCH_SIZE : Nat) (pool : Multiset P) (s : State P T) : Prop where
  within : ∀ t, WithinBatch BATCH_SIZE (s.pc t)
  counter : s.nrecvs_posted = Multiset.card s.posted + ∑ t, reservation BATCH_SIZE (s.pc t)
  bound : Multiset.card s.posted + ∑ t, pending net_max_recvs BATCH_SIZE (s.pc t) ≤ net_max_recvs
  packets : s.pool + s.posted + s.completed + ∑ t, held (s.pc t) = pool

theorem init_inv : Inv net_max_recvs BATCH_SIZE pool (State.init pool : State P T) where
  within _ := trivial
  counter := by simp [State.init, reservation]
  bound := by simp [State.init, pending]
  packets := by simp [State.init, held]

theorem Inv.pending_le {s : State P T} (hi : Inv net_max_recvs BATCH_SIZE pool s) :
    Multiset.card s.posted + ∑ t, pending net_max_recvs BATCH_SIZE (s.pc t) ≤ s.nrecvs_posted := by
  have hle : ∑ t, pending net_max_recvs BATCH_SIZE (s.pc t) ≤
      ∑ t, reservation BATCH_SIZE (s.pc t) :=
    Finset.sum_le_sum fun t _ => pending_le_reservation net_max_recvs BATCH_SIZE (hi.within t)
  rw [hi.counter]
  omega

theorem Inv.reservation_le {s : State P T} (hi : Inv net_max_recvs BATCH_SIZE pool s) (t : T) :
    Multiset.card s.posted + reservation BATCH_SIZE (s.pc t) ≤ s.nrecvs_posted := by
  have hle : reservation BATCH_SIZE (s.pc t) ≤ ∑ t, reservation BATCH_SIZE (s.pc t) :=
    Finset.single_le_sum (f := fun t => reservation BATCH_SIZE (s.pc t))
      (fun t _ => Nat.zero_le _) (Finset.mem_univ t)
  rw [hi.counter]
  omega

variable [DecidableEq T]

/-- **A step of one call.** Thread `t` moves to `p'`, with the counter, the pool and the posted
receives replaced, keeps the invariant when the counter changes by the posted receives and the
reservation, what the call may still post grows at most by the room left below
`net_max_recvs`, and no packet is lost or made. -/
theorem Inv.setPc {s : State P T} (hi : Inv net_max_recvs BATCH_SIZE pool s) {t : T} {p' : Pc P}
    {c' : Nat} {pl' ps' : Multiset P} (hw : WithinBatch BATCH_SIZE p')
    (hc : c' + Multiset.card s.posted + reservation BATCH_SIZE (s.pc t) =
      s.nrecvs_posted + Multiset.card ps' + reservation BATCH_SIZE p')
    (hb : Multiset.card ps' + pending net_max_recvs BATCH_SIZE p' ≤
      Multiset.card s.posted + pending net_max_recvs BATCH_SIZE (s.pc t) +
        (net_max_recvs - s.nrecvs_posted))
    (hp : pl' + ps' + held p' = s.pool + s.posted + held (s.pc t)) :
    Inv net_max_recvs BATCH_SIZE pool ⟨c', pl', ps', s.completed, Function.update s.pc t p'⟩ := by
  have hres := sum_update_add (Finset.mem_univ t) (reservation BATCH_SIZE) s.pc p'
  have hpend := sum_update_add (Finset.mem_univ t) (pending net_max_recvs BATCH_SIZE) s.pc p'
  have hheld := sum_update_add (Finset.mem_univ t) held s.pc p'
  have hcount := hi.counter
  have hbound := hi.bound
  have hle := hi.pending_le
  constructor
  case within =>
    intro t'
    by_cases ht : t' = t
    · subst ht
      simpa using hw
    · simpa [Function.update_of_ne ht] using hi.within t'
  case counter =>
    dsimp only
    omega
  case bound =>
    dsimp only
    omega
  case packets =>
    dsimp only
    apply add_right_cancel (b := held (s.pc t))
    calc pl' + ps' + s.completed + (∑ x, held (Function.update s.pc t p' x)) + held (s.pc t)
        = s.completed + ((∑ x, held (Function.update s.pc t p' x)) + held (s.pc t)) +
          (pl' + ps') := by abel
      _ = s.completed + (∑ x, held (s.pc x)) + (pl' + ps' + held p') := by rw [hheld]; abel
      _ = s.completed + (∑ x, held (s.pc x)) + (s.pool + s.posted + held (s.pc t)) := by rw [hp]
      _ = (s.pool + s.posted + s.completed + ∑ x, held (s.pc x)) + held (s.pc t) := by abel
      _ = pool + held (s.pc t) := by rw [hi.packets]

omit [DecidableEq T] in
theorem Inv.complete [DecidableEq P] {s : State P T} (hi : Inv net_max_recvs BATCH_SIZE pool s)
    {x : P} (hx : x ∈ s.posted) :
    Inv net_max_recvs BATCH_SIZE pool
      ⟨s.nrecvs_posted - 1, s.pool, s.posted.erase x, x ::ₘ s.completed, s.pc⟩ := by
  have hcard : Multiset.card (s.posted.erase x) + 1 = Multiset.card s.posted :=
    Multiset.card_erase_add_one hx
  have hcount := hi.counter
  have hbound := hi.bound
  constructor
  case within => exact hi.within
  case counter =>
    dsimp only
    omega
  case bound =>
    dsimp only
    omega
  case packets =>
    dsimp only
    rw [Multiset.add_cons, ← Multiset.cons_add, ← Multiset.add_cons, Multiset.cons_erase hx]
    exact hi.packets

/-- **Every step keeps the invariant.** -/
theorem Inv.of_step [DecidableEq P] {s s' : State P T} (hi : Inv net_max_recvs BATCH_SIZE pool s)
    {a : Action P T} (h : step net_max_recvs BATCH_SIZE s a = some s') :
    Inv net_max_recvs BATCH_SIZE pool s' := by
  cases a with
  | step t =>
    have hres := hi.reservation_le t
    have hw := hi.within t
    cases hpc : s.pc t with
    | idle =>
      simp only [step, hpc, State.setPc] at h
      split_ifs at h
      · cases h
        exact hi
      · cases h
        exact hi.setPc trivial (by simp [hpc, reservation]) (by simp [hpc, pending])
          (by simp [hpc, held])
    | loaded =>
      simp only [step, hpc, State.setPc] at h
      cases h
      exact hi.setPc trivial (by simp [hpc, reservation]; omega)
        (by simp only [hpc, pending]; omega) (by simp [hpc, held])
    | reserved my_position =>
      simp only [step, hpc, State.setPc] at h
      split_ifs at h with hpos
      cases h
      rw [hpc] at hres
      exact hi.setPc trivial (by simp only [hpc, reservation] at hres ⊢; omega)
        (by simp only [hpc, pending]; omega) (by simp [hpc, held])
    | popped packets =>
      cases packets with
      | nil =>
        simp only [step, hpc, State.setPc] at h
        cases h
        rw [hpc] at hres
        exact hi.setPc trivial (by simp only [hpc, reservation] at hres ⊢; omega)
          (by simp only [hpc, pending]; omega) (by simp [hpc, held])
      | cons _ _ => simp [step, hpc] at h
    | posted n_posted rest =>
      simp only [step, hpc, State.setPc] at h
      cases h
      rw [hpc] at hw
      exact hi.setPc hw (by simp [hpc, reservation]) (by simp only [hpc, pending]; omega)
        (by simp [hpc, held, add_right_comm])
    | put_back n_posted =>
      simp only [step, hpc, State.setPc] at h
      cases h
      rw [hpc] at hres
      refine hi.setPc trivial ?_ (by simp only [hpc, pending]; omega) (by simp [hpc, held])
      simp only [hpc, reservation] at hres ⊢
      split_ifs <;> omega
  | get_n t packets =>
    cases hpc : s.pc t with
    | reserved my_position =>
      simp only [step, hpc, State.setPc] at h
      split_ifs at h with hcond
      cases h
      obtain ⟨-, hlen, hsub⟩ := hcond
      exact hi.setPc (le_trans hlen (min_le_right _ _)) (by simp [hpc, reservation])
        (by simp only [hpc, pending]; omega)
        (by simp only [hpc, held]; rw [add_right_comm, Multiset.sub_add_cancel hsub, add_zero])
    | _ => simp [step, hpc] at h
  | post t n_posted =>
    have hw := hi.within t
    cases hpc : s.pc t with
    | popped packets =>
      simp only [step, hpc, State.setPc] at h
      split_ifs at h with hcond
      cases h
      obtain ⟨-, hn⟩ := hcond
      rw [hpc] at hw
      simp only [WithinBatch] at hw
      have htake : Multiset.card (packets.take n_posted : Multiset P) = n_posted := by
        simp [hn]
      refine hi.setPc (show n_posted ≤ BATCH_SIZE by omega)
        (by simp only [hpc, reservation, Multiset.card_add, htake]; omega)
        (by simp only [hpc, pending, Multiset.card_add, htake]; omega) ?_
      simp only [hpc, held]
      rw [← add_assoc, add_assoc (s.pool + s.posted), Multiset.coe_add, List.take_append_drop]
    | _ => simp [step, hpc] at h
  | complete x =>
    simp only [step] at h
    split_ifs at h with hx
    cases h
    exact hi.complete hx

theorem Reachable.inv [DecidableEq P] {s : State P T}
    (hs : Reachable net_max_recvs BATCH_SIZE pool s) : Inv net_max_recvs BATCH_SIZE pool s :=
  hs.induction_inv (fun _ h => h ▸ init_inv) fun _ _ hi ⟨_, h⟩ => hi.of_step h

/-- **Posted-receive accounting.** In every reachable state of a device whose packet pool starts
as `pool`, `nrecvs_posted` counts at least the posted receives not yet completed, exactly them when
no call of `post_recv_packets` is in flight, at most `net_max_recvs` receives are posted, and every
packet is in the pool, posted, completed, or held by a call that popped it and has not yet posted
it or put it back. -/
theorem posted_recv_accounting [DecidableEq P] {s : State P T}
    (hs : Reachable net_max_recvs BATCH_SIZE pool s) :
    Multiset.card s.posted ≤ s.nrecvs_posted ∧
      ((∀ t, s.pc t = .idle) → s.nrecvs_posted = Multiset.card s.posted) ∧
      Multiset.card s.posted ≤ net_max_recvs ∧
      s.pool + s.posted + s.completed + ∑ t, held (s.pc t) = pool := by
  have hi := hs.inv
  have hbound := hi.bound
  refine ⟨?_, fun hidle => ?_, by omega, hi.packets⟩
  · rw [hi.counter]
    exact Nat.le_add_right _ _
  · rw [hi.counter]
    simp [hidle, reservation]

end Run

/-- One call by one thread on a pool of two packets, with room for four receives and batches of
two: it pops both packets, posts one and puts the other back. -/
theorem posted_recv_accounting_one_call :
    let s := ([.step (), .step (), .get_n () [1, 2], .post () 1, .step (), .step ()].foldlM
      (step 4 2) (State.init (↑[1, 2] : Multiset Nat) : State Nat Unit)).getD (State.init ↑[1, 2])
    Reachable 4 2 (↑[1, 2] : Multiset Nat) s ∧
      (Multiset.card s.posted ≤ s.nrecvs_posted ∧
        ((∀ t, s.pc t = .idle) → s.nrecvs_posted = Multiset.card s.posted) ∧
        Multiset.card s.posted ≤ 4 ∧
        s.pool + s.posted + s.completed + ∑ t, held (s.pc t) = ↑[1, 2]) :=
  have hs : Reachable 4 2 (↑[1, 2] : Multiset Nat)
      (([.step (), .step (), .get_n () [1, 2], .post () 1, .step (), .step ()].foldlM
        (step 4 2) (State.init (↑[1, 2] : Multiset Nat) : State Nat Unit)).getD
          (State.init ↑[1, 2])) :=
    Machine.Reachable.of_foldlM (.init rfl)
      [.step (), .step (), .get_n () [1, 2], .post () 1, .step (), .step ()] rfl
  ⟨hs, posted_recv_accounting hs⟩

end Lci.PostRecv
