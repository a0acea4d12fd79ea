import Lci.Machine

/-! The array queues of LCT, `queue_array_atomic_faa_t` and `queue_array_atomic_cas_t`, in a debug
build, as threads interleaving their atomic steps. Both keep `length = capacity + 1` slots, each
a `data` pointer and a `tag`, and two counters. A push claims position `top` by `fetch_add`,
asserts that its slot is empty, writes the data and publishes the slot by storing the position as
its tag. A pop whose slot at `bot` carries the tag `bot` claims the position, reads the data and,
in a debug build, stores `bot + 1` as tag. The FAA queue claims with `fetch_add` and, finding the
slot not yet published, gives the position back by a compare-exchange of `bot` from `cb + 1` to
`cb`; the CAS queue claims with one compare-exchange and gives up when it fails. The FAA queue's
assertion expects the tag `t - length + 1` that the constructor and the pops of the round before
leave; the CAS queue's allows any tag but `t - length`.

The ghost `pushed` records each position a push claimed with its value, `returned` each position
a pop returned from with the result, and `seen` how many pops had returned when each thread's pop
began. Unsigned 64-bit tags and positions are integers: in runs of fewer than `2^63` operations
equality modulo `2^64` is equality. -/

namespace Lci.ArrayQueue

/-- `entry_t`: the data pointer (`none` is `nullptr`) and the tag of a slot. -/
structure entry_t (α : Type) where
  data : Option α
  tag : Int

/-- Where each thread is in `push` or `pop`: after `fetch_add` of `top` (`push_claimed`), after
the assertion, after writing the data; after loading `bot`, before claiming (FAA: `fetch_add`,
CAS: compare-exchange), holding a position in the FAA loop (`pop_waiting`, `pop_undoing`), before
reading the data and before the debug tag store. -/
inductive Pc (α : Type)
  | idle
  | push_claimed (t : Nat) (val : α)
  | push_checked (t : Nat) (val : α)
  | push_written (t : Nat) (val : α)
  | pop_loaded (b : Nat)
  | pop_claiming
  | pop_casing (b : Nat)
  | pop_waiting (cb : Nat)
  | pop_undoing (cb : Nat)
  | pop_reading (cb : Nat)
  | pop_storing (cb : Nat) (result : Option α)

/-- The queue's counters and slots, each thread's position in its call, whether a push's debug
assertion has fired (which aborts), and the ghost history. -/
structure State (α : Type) where
  top : Nat
  bot : Nat
  container : Nat → entry_t α
  pc : Nat → Pc α
  failed : Bool
  pushed : List (Nat × α)
  returned : List (Nat × Option α)
  seen : Nat → Nat

/-- A thread calls `push(val)` or `pop()`, or takes its next atomic step. -/
inductive Action (α : Type)
  | push (th : Nat) (val : α)
  | pop (th : Nat)
  | step (th : Nat)

section Model

variable {α : Type} (length : Nat)

/-- The constructor of `queue_array_atomic_faa_t`: every tag `i - length + 1`. -/
def queue_array_atomic_faa_t.init : State α :=
  ⟨0, 0, fun i => ⟨none, (i : Int) - length + 1⟩, fun _ => .idle, false, [], [], fun _ => 0⟩

/-- The constructor of `queue_array_atomic_cas_t`: every tag `-1`. -/
def queue_array_atomic_cas_t.init : State α :=
  ⟨0, 0, fun _ => ⟨none, -1⟩, fun _ => .idle, false, [], [], fun _ => 0⟩

/-- The assertion in `queue_array_atomic_faa_t::push`. -/
def queue_array_atomic_faa_t.slot_empty (tag : Int) (t : Nat) : Bool :=
  tag == (t : Int) - length + 1

/-- The assertion in `queue_array_atomic_cas_t::push`. -/
def queue_array_atomic_cas_t.slot_empty (tag : Int) (t : Nat) : Bool :=
  tag != (t : Int) - length

def State.setPc (s : State α) (th : Nat) (pc : Pc α) : State α :=
  { s with pc := Function.update s.pc th pc }

def State.setTag (s : State α) (i : Nat) (tag : Int) : State α :=
  { s with container := Function.update s.container i { s.container i with tag := tag } }

def State.setData (s : State α) (i : Nat) (data : Option α) : State α :=
  { s with container := Function.update s.container i { s.container i with data := data } }

/-- A thread calls `push(val)`: `fetch_add` on `top`. A push claiming position `t` starts only
after the pop that claimed `t - length` has returned. -/
def push_begin (s : State α) (th : Nat) (val : α) : Option (State α) :=
  match s.pc th with
  | .idle =>
    if s.top < length ∨ s.top - length ∈ s.returned.map Prod.fst then
      some { s.setPc th (.push_claimed s.top val) with
        top := s.top + 1
        pushed := s.pushed ++ [(s.top, val)] }
    else none
  | _ => none

def pop_begin (s : State α) (th : Nat) : Option (State α) :=
  match s.pc th with
  | .idle =>
    some { s.setPc th (.pop_loaded s.bot) with seen := Function.update s.seen th s.returned.length }
  | _ => none

/-- The steps of `push` after `fetch_add`, with the queue's assertion `slot_empty`; its failure
aborts. -/
def push_step (slot_empty : Int → Nat → Bool) (s : State α) (th : Nat) :
    Pc α → Option (State α)
  | .push_claimed t val =>
    if slot_empty (s.container (t % length)).tag t then some (s.setPc th (.push_checked t val))
    else some { s with failed := true }
  | .push_checked t val => some ((s.setData (t % length) (some val)).setPc th (.push_written t val))
  | .push_written t _ => some ((s.setTag (t % length) t).setPc th .idle)
  | _ => none

/-- The last steps of both pops: read the data, then store `cb + 1` as tag and return it. -/
def pop_finish (s : State α) (th : Nat) : Pc α → Option (State α)
  | .pop_reading cb => some (s.setPc th (.pop_storing cb (s.container (cb % length)).data))
  | .pop_storing cb result =>
    some { (s.setTag (cb % length) (cb + 1)).setPc th .idle with
      returned := s.returned ++ [(cb, result)] }
  | _ => none

def queue_array_atomic_faa_t.pop_step (s : State α) (th : Nat) : Pc α → Option (State α)
  | .pop_loaded b =>
    if (s.container (b % length)).tag ≠ b then some (s.setPc th .idle)
    else some (s.setPc th .pop_claiming)
  | .pop_claiming => some { s.setPc th (.pop_waiting s.bot) with bot := s.bot + 1 }
  | .pop_waiting cb =>
    if (s.container (cb % length)).tag = cb then some (s.setPc th (.pop_reading cb))
    else some (s.setPc th (.pop_undoing cb))
  | .pop_undoing cb =>
    if s.bot = cb + 1 then some { s.setPc th .idle with bot := cb }
    else some (s.setPc th (.pop_waiting cb))
  | pc => pop_finish length s th pc

def queue_array_atomic_cas_t.pop_step (s : State α) (th : Nat) : Pc α → Option (State α)
  | .pop_loaded b =>
    if (s.container (b % length)).tag ≠ b then some (s.setPc th .idle)
    else some (s.setPc th (.pop_casing b))
  | .pop_casing b =>
    if s.bot = b then some { s.setPc th (.pop_reading b) with bot := b + 1 }
    else some (s.setPc th .idle)
  | pc => pop_finish length s th pc

/-- One atomic step of a queue with `slot_empty` and `pop_step`; nothing moves after an
assertion has fired. -/
def step (slot_empty : Int → Nat → Bool) (pop_step : State α → Nat → Pc α → Option (State α))
    (s : State α) : Action α → Option (State α)
  | .push th val => if s.failed then none else push_begin length s th val
  | .pop th => if s.failed then none else pop_begin s th
  | .step th =>
    if s.failed then none
    else (push_step length slot_empty s th (s.pc th)).or (pop_step s th (s.pc th))

def queue_array_atomic_faa_t.Reachable (capacity : Nat) : State α → Prop :=
  Machine.Reachable (· = queue_array_atomic_faa_t.init (capacity + 1))
    (fun s s' => ∃ a, step (capacity + 1) (queue_array_atomic_faa_t.slot_empty (capacity + 1))
      (queue_array_atomic_faa_t.pop_step (capacity + 1)) s a = some s')

def queue_array_atomic_cas_t.Reachable (capacity : Nat) : State α → Prop :=
  Machine.Reachable (· = queue_array_atomic_cas_t.init)
    (fun s s' => ∃ a, step (capacity + 1) (queue_array_atomic_cas_t.slot_empty (capacity + 1))
      (queue_array_atomic_cas_t.pop_step (capacity + 1)) s a = some s')

end Model

section CasAssert

variable {α : Type} {c : Nat}

/-- One thread has pushed `k` values into a fresh `queue_array_atomic_cas_t`: the slots below `k`
are published, those from `k` on still carry the constructor's tag `-1`. -/
structure Filled (s : State α) (k : Nat) : Prop where
  top : s.top = k
  idle : s.pc 0 = .idle
  not_failed : s.failed = false
  fresh : ∀ i, k ≤ i → (s.container i).tag = -1
  published : ∀ i < k, (s.container i).tag = i
  bot : s.bot = 0
  pushed : s.pushed.length = k
  returned : s.returned = []

theorem filled_init : Filled (queue_array_atomic_cas_t.init : State α) 0 :=
  ⟨rfl, rfl, rfl, fun _ _ => rfl, fun _ h => absurd h (Nat.not_lt_zero _), rfl, rfl, rfl⟩

theorem Filled.push (v : α) {s : State α} {k : Nat} (hs : queue_array_atomic_cas_t.Reachable c s)
    (hF : Filled s k) (hk : k < c) :
    ∃ s' : State α, queue_array_atomic_cas_t.Reachable c s' ∧ Filled s' (k + 1) := by
  have hmod : k % (c + 1) = k := Nat.mod_eq_of_lt (by omega)
  let s1 : State α := { s.setPc 0 (.push_claimed k v) with
    top := k + 1
    pushed := s.pushed ++ [(k, v)] }
  let s2 := s1.setPc 0 (.push_checked k v)
  let s3 := (s2.setData k (some v)).setPc 0 (.push_written k v)
  let s4 := (s3.setTag k k).setPc 0 .idle
  have h1 : step (c + 1) (queue_array_atomic_cas_t.slot_empty (c + 1))
      (queue_array_atomic_cas_t.pop_step (c + 1)) s (.push 0 v) = some s1 := by
    simp [step, push_begin, hF.not_failed, hF.idle, hF.top, s1, show k < c + 1 by omega]
  have h2 : step (c + 1) (queue_array_atomic_cas_t.slot_empty (c + 1))
      (queue_array_atomic_cas_t.pop_step (c + 1)) s1 (.step 0) = some s2 := by
    have htag : (s.container k).tag = -1 := hF.fresh k le_rfl
    simp [step, push_step, s1, s2, State.setPc, hF.not_failed, hmod, htag,
      queue_array_atomic_cas_t.slot_empty]
    omega
  have h3 : step (c + 1) (queue_array_atomic_cas_t.slot_empty (c + 1))
      (queue_array_atomic_cas_t.pop_step (c + 1)) s2 (.step 0) = some s3 := by
    simp [step, push_step, s1, s2, s3, State.setPc, hF.not_failed, hmod]
  have h4 : step (c + 1) (queue_array_atomic_cas_t.slot_empty (c + 1))
      (queue_array_atomic_cas_t.pop_step (c + 1)) s3 (.step 0) = some s4 := by
    simp [step, push_step, s1, s2, s3, s4, State.setPc, State.setData, hF.not_failed, hmod]
  refine ⟨s4, hs.step ⟨_, h1⟩ |>.step ⟨_, h2⟩ |>.step ⟨_, h3⟩ |>.step ⟨_, h4⟩,
    ⟨rfl, ?_, ?_, ?_, ?_, hF.bot, by simp [s4, s3, s2, s1, State.setPc, State.setData, State.setTag,
      hF.pushed], hF.returned⟩⟩
  · simp [s4, State.setPc]
  · simpa [s4, s3, s2, s1, State.setPc, State.setData, State.setTag] using hF.not_failed
  · intro i hi
    simp only [s4, s3, s2, s1, State.setPc, State.setData, State.setTag]
    rw [Function.update_of_ne (by omega), Function.update_of_ne (by omega)]
    exact hF.fresh i (by omega)
  · intro i hi
    simp only [s4, s3, s2, s1, State.setPc, State.setData, State.setTag]
    rcases Nat.lt_succ_iff_lt_or_eq.mp hi with hi | rfl
    · rw [Function.update_of_ne (by omega), Function.update_of_ne (by omega)]
      exact hF.published i hi
    · simp

theorem filled_reachable (v : α) : ∀ k ≤ c, ∃ s : State α,
    queue_array_atomic_cas_t.Reachable c s ∧ Filled s k
  | 0, _ => ⟨_, .init rfl, filled_init⟩
  | k + 1, hk => by
    obtain ⟨s, hs, hF⟩ := filled_reachable v k (by omega)
    exact hF.push v hs (by omega)

/-- A push of thread `0` that claims position `c`, whose slot still carries the constructor's tag
`-1 = c - length`, fires the assertion. -/
theorem push_fires (v : α) {s : State α} (hs : queue_array_atomic_cas_t.Reachable c s)
    (hfail : s.failed = false) (hidle : s.pc 0 = .idle) (htop : s.top = c)
    (htag : (s.container c).tag = -1) :
    ∃ s' : State α, queue_array_atomic_cas_t.Reachable c s' ∧ s'.failed = true ∧
      s'.pushed = s.pushed ++ [(c, v)] ∧ s'.returned = s.returned := by
  have hmod : c % (c + 1) = c := Nat.mod_eq_of_lt (by omega)
  let s1 : State α := { s.setPc 0 (.push_claimed c v) with
    top := c + 1
    pushed := s.pushed ++ [(c, v)] }
  have h1 : step (c + 1) (queue_array_atomic_cas_t.slot_empty (c + 1))
      (queue_array_atomic_cas_t.pop_step (c + 1)) s (.push 0 v) = some s1 := by
    simp [step, push_begin, hfail, hidle, htop, s1]
  have h2 : step (c + 1) (queue_array_atomic_cas_t.slot_empty (c + 1))
      (queue_array_atomic_cas_t.pop_step (c + 1)) s1 (.step 0) =
        some { s1 with failed := true } := by
    simp [step, push_step, s1, State.setPc, hfail, hmod, htag,
      queue_array_atomic_cas_t.slot_empty]
  exact ⟨_, hs.step ⟨_, h1⟩ |>.step ⟨_, h2⟩, rfl, rfl, rfl⟩

/-- Thread `0` pops the first of the `k ≥ 1` values it pushed: the pop claims position `0` and
stores the tag `1` there, and every other slot is left as it was. -/
theorem Filled.pop_first {s : State α} {k : Nat} (hs : queue_array_atomic_cas_t.Reachable c s)
    (hF : Filled s k) (hk : 1 ≤ k) :
    ∃ s' : State α, queue_array_atomic_cas_t.Reachable c s' ∧ s'.failed = false ∧
      s'.pc 0 = .idle ∧ s'.top = k ∧ (∀ i ≠ 0, s'.container i = s.container i) ∧
      s'.pushed = s.pushed ∧ s'.returned.length = 1 := by
  have h0 : (s.container 0).tag = 0 := hF.published 0 hk
  let s1 : State α := { s.setPc 0 (.pop_loaded 0) with seen := Function.update s.seen 0 0 }
  let s2 := s1.setPc 0 (.pop_casing 0)
  let s3 : State α := { s2.setPc 0 (.pop_reading 0) with bot := 1 }
  let s4 := s3.setPc 0 (.pop_storing 0 (s.container 0).data)
  let s5 : State α := { (s4.setTag 0 1).setPc 0 .idle with returned := [(0, (s.container 0).data)] }
  have h1 : step (c + 1) (queue_array_atomic_cas_t.slot_empty (c + 1))
      (queue_array_atomic_cas_t.pop_step (c + 1)) s (.pop 0) = some s1 := by
    simp [step, pop_begin, hF.not_failed, hF.idle, hF.bot, hF.returned, s1]
  have h2 : step (c + 1) (queue_array_atomic_cas_t.slot_empty (c + 1))
      (queue_array_atomic_cas_t.pop_step (c + 1)) s1 (.step 0) = some s2 := by
    simp [step, push_step, queue_array_atomic_cas_t.pop_step, s1, s2, State.setPc, hF.not_failed, h0]
  have h3 : step (c + 1) (queue_array_atomic_cas_t.slot_empty (c + 1))
      (queue_array_atomic_cas_t.pop_step (c + 1)) s2 (.step 0) = some s3 := by
    simp [step, push_step, queue_array_atomic_cas_t.pop_step, s1, s2, s3, State.setPc, hF.not_failed,
      hF.bot]
  have h4 : step (c + 1) (queue_array_atomic_cas_t.slot_empty (c + 1))
      (queue_array_atomic_cas_t.pop_step (c + 1)) s3 (.step 0) = some s4 := by
    simp [step, push_step, queue_array_atomic_cas_t.pop_step, pop_finish, s1, s2, s3, s4,
      State.setPc, hF.not_failed]
  have h5 : step (c + 1) (queue_array_atomic_cas_t.slot_empty (c + 1))
      (queue_array_atomic_cas_t.pop_step (c + 1)) s4 (.step 0) = some s5 := by
    simp [step, push_step, queue_array_atomic_cas_t.pop_step, pop_finish, s1, s2, s3, s4, s5,
      State.setPc, hF.not_failed, hF.returned]
  refine ⟨s5, hs.step ⟨_, h1⟩ |>.step ⟨_, h2⟩ |>.step ⟨_, h3⟩ |>.step ⟨_, h4⟩ |>.step ⟨_, h5⟩,
    hF.not_failed, by simp [s5, State.setPc], hF.top, fun i hi => ?_, rfl, rfl⟩
  simp [s5, s4, s3, s2, s1, State.setPc, State.setTag, Function.update_of_ne hi]

/-- **The CAS queue's assertion fires at the last slot.** In a fresh `queue_array_atomic_cas_t`
of any capacity `c`, one thread's `c + 1` pushes with no pop in between make the debug assertion
of the last fail: at position `c = length - 1` it finds the constructor's tag `-1`, which is
`c - length`. No pop has claimed a position `c - length`, so the pushes respect the queue's
capacity. -/
theorem cas_push_assert_fails (c : Nat) (v : α) :
    ∃ s : State α, queue_array_atomic_cas_t.Reachable c s ∧ s.failed = true := by
  obtain ⟨s, hs, hF⟩ := filled_reachable v c le_rfl
  obtain ⟨s', hs', hfail, -⟩ := push_fires v hs hF.not_failed hF.idle hF.top (hF.fresh c le_rfl)
  exact ⟨s', hs', hfail⟩

/-- **The assertion fires on a queue that is not full.** In a `queue_array_atomic_cas_t` of any
capacity `c ≥ 1`, `c` pushes and one pop leave `c - 1` values queued; the next push claims
position `c = length - 1`, finds the constructor's tag `-1` there and fires its assertion. -/
theorem cas_push_assert_fails_after_pop (c : Nat) (hc : 1 ≤ c) (v : α) :
    ∃ s : State α, queue_array_atomic_cas_t.Reachable c s ∧ s.failed = true ∧
      s.pushed.length = c + 1 ∧ s.returned.length = 1 := by
  obtain ⟨s, hs, hF⟩ := filled_reachable v c le_rfl
  obtain ⟨s1, hs1, hfail1, hidle1, htop1, hcont1, hpushed1, hret1⟩ := hF.pop_first hs hc
  have htag : (s1.container c).tag = -1 := by
    rw [hcont1 c (by omega)]
    exact hF.fresh c le_rfl
  obtain ⟨s2, hs2, hfail2, hpushed2, hret2⟩ := push_fires v hs1 hfail1 hidle1 htop1 htag
  refine ⟨s2, hs2, hfail2, ?_, by rw [hret2, hret1]⟩
  rw [hpushed2, hpushed1, List.length_append, hF.pushed, List.length_singleton]

/-- Capacity 3: push, push, push, pop, push fires on a queue holding two values. -/
theorem cas_push_assert_fails_after_pop_three :
    1 ≤ 3 ∧ ∃ s : State Nat, queue_array_atomic_cas_t.Reachable 3 s ∧ s.failed = true ∧
      s.pushed.length = 3 + 1 ∧ s.returned.length = 1 :=
  ⟨by decide, cas_push_assert_fails_after_pop 3 (by decide) 7⟩

end CasAssert

end Lci.ArrayQueue
