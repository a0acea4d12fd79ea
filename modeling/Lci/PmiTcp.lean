import Lci.WriteLog
import Lci.Machine

/-! The key-value exchange of the TCP PMI (`pmi_wrapper_tcp.cpp`). A rank's `publish` only
records the entry in its pending map. At a `barrier` a nonzero rank sends its pending entries and
a BARRIER message to rank 0 over its own FIFO connection and waits for a snapshot of the store.
Rank 0 runs the server inside its own barrier: it applies its pending entries, reads one message
at a time from any client that has not arrived yet, and once all have arrived sends every client
the whole store. `getname` looks the key up in the local store: the master map on rank 0, the last
snapshot elsewhere.

Keys and values are of any types. The ghost `hist` records each rank's publishes and barrier calls
in order, `consumed` the messages rank 0 has read from each connection, and `done` how many
barriers each rank has returned from. -/

namespace Lci.PmiTcp

open WriteLog

/-- A call a rank makes: `publish(key, value)` or `barrier()`. -/
inductive Op (K V : Type)
  | publish (key : K) (value : V)
  | barrier
  deriving DecidableEq, Repr

/-- `wire_msg_t` as a client sends it: of type `MSG_PUBLISH` or `MSG_BARRIER`. -/
inductive wire_msg_t (K V : Type)
  | MSG_PUBLISH (rank : Nat) (key : K) (value : V)
  | MSG_BARRIER (rank : Nat)
  deriving DecidableEq, Repr

inductive Pc
  | idle
  | in_barrier
  deriving DecidableEq, Repr

section Model

variable {K V : Type}

def Op.isBarrier : Op K V → Bool
  | .barrier => true
  | .publish _ _ => false

def Op.write? : Op K V → Option (K × V)
  | .publish k v => some (k, v)
  | .barrier => none

def wire_msg_t.isBarrier : wire_msg_t K V → Bool
  | .MSG_BARRIER _ => true
  | .MSG_PUBLISH _ _ _ => false

def wire_msg_t.write? : wire_msg_t K V → Option (K × V)
  | .MSG_PUBLISH _ k v => some (k, v)
  | .MSG_BARRIER _ => none

@[simp] theorem Op.isBarrier_publish (k : K) (v : V) : (Op.publish k v).isBarrier = false := rfl
@[simp] theorem Op.isBarrier_barrier : (Op.barrier : Op K V).isBarrier = true := rfl
@[simp] theorem Op.write?_publish (k : K) (v : V) : (Op.publish k v).write? = some (k, v) := rfl
@[simp] theorem Op.write?_barrier : (Op.barrier : Op K V).write? = none := rfl

@[simp] theorem wire_msg_t.isBarrier_MSG_PUBLISH (rank : Nat) (k : K) (v : V) :
    (wire_msg_t.MSG_PUBLISH rank k v).isBarrier = false := rfl
@[simp] theorem wire_msg_t.isBarrier_MSG_BARRIER (rank : Nat) :
    (wire_msg_t.MSG_BARRIER rank : wire_msg_t K V).isBarrier = true := rfl
@[simp] theorem wire_msg_t.write?_MSG_PUBLISH (rank : Nat) (k : K) (v : V) :
    (wire_msg_t.MSG_PUBLISH rank k v).write? = some (k, v) := rfl
@[simp] theorem wire_msg_t.write?_MSG_BARRIER (rank : Nat) :
    (wire_msg_t.MSG_BARRIER rank : wire_msg_t K V).write? = none := rfl

/-- The number of barrier calls in a history. -/
def calls (h : List (Op K V)) : Nat := h.countP Op.isBarrier

@[simp] theorem calls_nil : calls ([] : List (Op K V)) = 0 := rfl

@[simp] theorem calls_cons_publish (k : K) (v : V) (h : List (Op K V)) :
    calls (.publish k v :: h) = calls h := by
  simp [calls]

@[simp] theorem calls_cons_barrier (h : List (Op K V)) : calls (.barrier :: h) = calls h + 1 := by
  simp [calls, List.countP_cons]

@[simp] theorem calls_append (h h' : List (Op K V)) : calls (h ++ h') = calls h + calls h' :=
  List.countP_append

/-- Each rank's state, rank 0's server state and the two directions of every connection: `up r`
from client `r` to rank 0, `down r` the snapshots rank 0 sent `r`. -/
structure State (K V : Type) where
  pc : Nat → Pc
  g_pending_kvs : Nat → List (K × V)
  g_kvs : Nat → Nat × K → Option V
  arrived : Nat → Bool
  arrived_count : Nat
  up : Nat → List (wire_msg_t K V)
  down : Nat → List (Nat × K → Option V)
  done : Nat → Nat
  hist : Nat → List (Op K V)
  consumed : Nat → List (wire_msg_t K V)

def State.init : State K V :=
  ⟨fun _ => .idle, fun _ => [], fun _ _ => none, fun _ => false, 0, fun _ => [], fun _ => [],
    fun _ => 0, fun _ => [], fun _ => []⟩

/-- The calls a rank makes and the steps of rank 0's server. -/
inductive Action (K V : Type)
  | publish (r : Nat) (key : K) (value : V)
  | barrier (r : Nat)
  | serve (r : Nat)
  | release
  | recv (r : Nat)

variable [DecidableEq K]

/-- `apply_pending_publishes`: rank `g_rank`'s pending entries go into its store. -/
def apply_pending_publishes (g_rank : Nat) (kvs : Nat × K → Option V) :
    List (K × V) → Nat × K → Option V
  | [] => kvs
  | (k, v) :: l => apply_pending_publishes g_rank (Function.update kvs (g_rank, k) (some v)) l

/-- `store_remote_publish`; it fails when the message names another rank than its connection's. -/
def store_remote_publish (kvs : Nat × K → Option V) (rank : Nat) (key : K) (value : V)
    (client_rank : Nat) : Option (Nat × K → Option V) :=
  if rank ≠ client_rank then none
  else some (Function.update kvs (client_rank, key) (some value))

/-- What `nonzero_barrier` sends: a `MSG_PUBLISH` per pending entry, then `MSG_BARRIER`. -/
def barrier_msgs (g_rank : Nat) (pending : List (K × V)) : List (wire_msg_t K V) :=
  pending.map (fun e => .MSG_PUBLISH g_rank e.1 e.2) ++ [.MSG_BARRIER g_rank]

/-- `getname(rank, key)` at rank `p` of `n`; `none` where it fails. -/
def getname (n : Nat) (s : State K V) (p rank : Nat) (key : K) : Option V :=
  if rank < n then s.g_kvs p (rank, key) else none

/-- Rank 0 reads message `m` from client `r`'s connection, whose rest is `rest`. -/
def serve_msg (s : State K V) (r : Nat) (m : wire_msg_t K V) (rest : List (wire_msg_t K V)) :
    Option (State K V) :=
  let s' := { s with
    up := Function.update s.up r rest
    consumed := Function.update s.consumed r (s.consumed r ++ [m]) }
  match m with
  | .MSG_PUBLISH rank key value =>
    (store_remote_publish (s.g_kvs 0) rank key value r).map fun kvs =>
      { s' with g_kvs := Function.update s.g_kvs 0 kvs }
  | .MSG_BARRIER rank =>
    if rank ≠ r then none
    else some { s' with
      arrived := Function.update s.arrived r true
      arrived_count := s.arrived_count + 1 }

/-- One step of `n` ranks. A rank calls `publish` or `barrier` only outside a barrier; rank 0's
`barrier` is `apply_pending_publishes` and the start of `rank0_barrier`, a nonzero rank's sends
its messages; rank 0 reads from a client that has not arrived, and leaves its loop once
`arrived_count` reaches `n`, sending every client the store; a client returns on its snapshot
(`recv_snapshot`, then `g_pending_kvs.clear()`). -/
def step (n : Nat) (s : State K V) : Action K V → Option (State K V)
  | .publish r key value =>
    if r < n ∧ s.pc r = .idle then
      some { s with
        g_pending_kvs := Function.update s.g_pending_kvs r (assign (s.g_pending_kvs r) key value)
        hist := Function.update s.hist r (s.hist r ++ [.publish key value]) }
    else none
  | .barrier r =>
    if r < n ∧ s.pc r = .idle then
      if r = 0 then
        some { s with
          pc := Function.update s.pc 0 .in_barrier
          g_kvs := Function.update s.g_kvs 0
            (apply_pending_publishes 0 (s.g_kvs 0) (s.g_pending_kvs 0))
          g_pending_kvs := Function.update s.g_pending_kvs 0 []
          arrived := fun q => decide (q = 0)
          arrived_count := 1
          hist := Function.update s.hist 0 (s.hist 0 ++ [.barrier]) }
      else
        some { s with
          pc := Function.update s.pc r .in_barrier
          up := Function.update s.up r (s.up r ++ barrier_msgs r (s.g_pending_kvs r))
          hist := Function.update s.hist r (s.hist r ++ [.barrier]) }
    else none
  | .serve r =>
    if s.pc 0 = .in_barrier ∧ 0 < r ∧ r < n ∧ s.arrived r = false then
      match s.up r with
      | [] => none
      | m :: rest => serve_msg s r m rest
    else none
  | .release =>
    if s.pc 0 = .in_barrier ∧ n ≤ s.arrived_count then
      some { s with
        pc := Function.update s.pc 0 .idle
        down := fun q => if 0 < q ∧ q < n then s.down q ++ [s.g_kvs 0] else s.down q
        done := Function.update s.done 0 (s.done 0 + 1) }
    else none
  | .recv r =>
    if 0 < r ∧ r < n ∧ s.pc r = .in_barrier then
      match s.down r with
      | [] => none
      | snapshot :: rest =>
        some { s with
          pc := Function.update s.pc r .idle
          g_kvs := Function.update s.g_kvs r snapshot
          g_pending_kvs := Function.update s.g_pending_kvs r []
          down := Function.update s.down r rest
          done := Function.update s.done r (s.done r + 1) }
    else none

/-- The states of `n` ranks in any interleaving of their calls and of rank 0's reads. -/
def Reachable (n : Nat) : State K V → Prop :=
  Machine.Reachable (· = State.init) (fun s s' => ∃ a, step n s a = some s')

/-- **The fence's specification.** The value of the last publish of `key` in history `h` made
before its `k`-th barrier call; `none` if there is none. -/
def published (h : List (Op K V)) (k : Nat) (key : K) : Option V :=
  lastWrite key ((takeThrough Op.isBarrier h k).filterMap Op.write?)

end Model

end Lci.PmiTcp
