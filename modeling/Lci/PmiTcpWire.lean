import Lci.PmiWire
import Lci.PmiHex
import Lci.Assoc

/-! The TCP PMI's barrier and its handshake, message by message on the connections
(src/lct/pmi/pmi_wrapper_tcp.cpp). A nonzero rank's `nonzero_barrier` sends one `MSG_PUBLISH` per
pending entry and a `MSG_BARRIER`, then reads an `MSG_OK` whose `aux` counts the `MSG_VALUE`
records of rank 0's store that follow (`recv_snapshot`). Rank 0's `rank0_barrier` applies its own
pending entries, then reads one message at a time from any client that has not arrived, in the
order `poll` reports them, and stores each publish under the client's rank; when all have arrived
it sends every client the store (`send_snapshot`). Before any of this, `accept_rank_clients`
takes one hello per connection until every other rank has joined.

The `std::map`s are Mathlib's `AList`s: unique keys, `operator[]` as `insert`, `find` as `lookup`;
a snapshot is sent in the order of the list. Fields a message never sets (`aux` of a record, of a
publish, of a barrier request) hold an indeterminate value, which the model takes as an argument.
A `fail`, a `fail_if` and a thrown exception are errors with the text the code builds. -/

namespace Lci.PmiWire

open Lci.PmiHex (LCT_PMI_STRING_LIMIT)
open Lci.Assoc Lci.Codec

/-! ### Messages -/

/-- The values of `msg_type_t`. -/
def MSG_HELLO : UInt32 := 1
def MSG_PUBLISH : UInt32 := 2
def MSG_BARRIER : UInt32 := 4
def MSG_FINALIZE : UInt32 := 5
def MSG_OK : UInt32 := 100
def MSG_VALUE : UInt32 := 101
def MSG_ERROR : UInt32 := 102

def UINT32_MAX : Nat := 2 ^ 32 - 1

/-- The bytes of a `std::string` appended to the text of an error. -/
def text (bytes : List UInt8) : String := String.ofList (bytes.map fun b => Char.ofNat b.toNat)

/-- `g_kvs`: `std::map<std::pair<int, std::string>, std::string>`. -/
abbrev kvs_t := AList fun _ : Int32 × List UInt8 => List UInt8

/-- `g_pending_kvs`: `std::map<std::string, std::string>`. -/
abbrev pending_t := AList fun _ : List UInt8 => List UInt8

/-- The loop `for (...) if (!send_msg(fd, msg, ...)) fail(what + error);` over messages whose `send`
calls go as `sends i`, `sends (i + 1)`, ...: the bytes written up to the first failure. -/
def send_each (what : String) (sends : Nat → sends_t) : List wire_msg_t → Nat →
    Except String Unit × List UInt8
  | [], _ => (.ok (), [])
  | msg :: msgs, i =>
    match send_msg msg (sends i) with
    | (.error e, out) => (.error (what ++ e), out)
    | (.ok (), out) =>
      let r := send_each what sends msgs (i + 1)
      (r.1, out ++ r.2)

/-! ### The snapshot -/

/-- The `MSG_VALUE` record of one entry of the store; its `aux` is never set. -/
def snapshot_record (junk : UInt32) (kv : Σ _ : Int32 × List UInt8, List UInt8) : wire_msg_t :=
  ⟨MSG_VALUE, kv.1.1, junk, kv.1.2, kv.2⟩

/-- `send_snapshot(fd)`: the count in an `MSG_OK`, then the records; `junk i` is the unset `aux`
of record `i`, and message `i` goes as `sends i`. -/
def send_snapshot (g_kvs : kvs_t) (junk : Nat → UInt32) (sends : Nat → sends_t) :
    Except String Unit × List UInt8 :=
  if UINT32_MAX < g_kvs.entries.length then
    (.error "LCT TCP PMI KVS snapshot has too many entries", [])
  else
    write_then
      (send_each "LCT TCP PMI failed to send barrier response: " sends
        [⟨MSG_OK, 0, UInt32.ofNat g_kvs.entries.length, [], []⟩] 0)
      (send_each "LCT TCP PMI failed to send KVS snapshot record to rank: " sends
        (g_kvs.entries.zipIdx.map fun e => snapshot_record (junk e.2) e.1) 1)

/-- `recv_snapshot(count)`: `count` records, each checked, into a new map. -/
def recv_snapshot (g_size : Int32) : Nat → kvs_t → Pieces → Except String kvs_t × Pieces
  | 0, snapshot, pieces => (.ok snapshot, pieces)
  | count + 1, snapshot, pieces =>
    match recv_msg pieces with
    | (.error e, pieces) => (.error ("LCT TCP PMI failed receiving KVS snapshot: " ++ e), pieces)
    | (.ok record, pieces) =>
      if record.type = MSG_ERROR then
        (.error ("LCT TCP PMI server error: " ++ text record.value), pieces)
      else if record.type ≠ MSG_VALUE then
        (.error ("LCT TCP PMI received unexpected KVS snapshot record type " ++
          toString record.type.toNat), pieces)
      else if record.rank < 0 ∨ g_size ≤ record.rank then
        (.error ("LCT TCP PMI snapshot contains invalid rank " ++ toString record.rank.toInt),
          pieces)
      else if LCT_PMI_STRING_LIMIT ≤ record.key.length ∨
          LCT_PMI_STRING_LIMIT ≤ record.value.length then
        (.error "LCT TCP PMI getname value exceeds LCT_PMI_STRING_LIMIT", pieces)
      else recv_snapshot g_size count (snapshot.insert (record.rank, record.key) record.value) pieces

/-! ### A nonzero rank's barrier -/

/-- What a rank keeps: its pending publishes and its copy of the store. -/
structure pmi_state_t where
  g_pending_kvs : pending_t
  g_kvs : kvs_t

/-- The `MSG_PUBLISH` of one pending entry; its `aux` is never set. -/
def publish_msg (g_rank : Int32) (junk : UInt32) (kv : Σ _ : List UInt8, List UInt8) : wire_msg_t :=
  ⟨MSG_PUBLISH, g_rank, junk, kv.1, kv.2⟩

/-- The publishes and the barrier request `nonzero_barrier` sends, `junk i` in the unset `aux` of
message `i`. -/
def barrier_msgs (g_rank : Int32) (pending : pending_t) (junk : Nat → UInt32) : List wire_msg_t :=
  pending.entries.zipIdx.map (fun e => publish_msg g_rank (junk e.2) e.1) ++
    [⟨MSG_BARRIER, g_rank, junk pending.entries.length, [], []⟩]

/-- The reading half of `nonzero_barrier`: the response, then the snapshot it announces. -/
def recv_barrier_response (g_size : Int32) (pieces : Pieces) : Except String kvs_t × Pieces :=
  match recv_msg pieces with
  | (.error e, pieces) =>
    (.error ("LCT TCP PMI failed waiting for TCP rendezvous barrier: " ++ e), pieces)
  | (.ok response, pieces) =>
    if response.type = MSG_ERROR then
      (.error ("LCT TCP PMI server error: " ++ text response.value), pieces)
    else if response.type ≠ MSG_OK then
      (.error ("LCT TCP PMI barrier received unexpected response type " ++
        toString response.type.toNat), pieces)
    else recv_snapshot g_size response.aux.toNat ∅ pieces

/-- `nonzero_barrier()`: the pending publishes and the barrier request go out (message `i` as
`sends i`), then the snapshot read back replaces the store and the pending entries are cleared.
The new state, the bytes sent, and what is left of the connection. -/
def nonzero_barrier (g_rank g_size : Int32) (st : pmi_state_t) (junk : Nat → UInt32)
    (sends : Nat → sends_t) (pieces : Pieces) : Except String pmi_state_t × List UInt8 × Pieces :=
  let sent := write_then
    (send_each "LCT TCP PMI failed to send pending publish during barrier: " sends
      ((barrier_msgs g_rank st.g_pending_kvs junk).dropLast) 0)
    (send_each "LCT TCP PMI failed to send barrier request: " sends
      [⟨MSG_BARRIER, g_rank, junk st.g_pending_kvs.entries.length, [], []⟩]
      st.g_pending_kvs.entries.length)
  match sent.1 with
  | .error e => (.error e, sent.2, pieces)
  | .ok () =>
    match recv_barrier_response g_size pieces with
    | (.error e, pieces) => (.error e, sent.2, pieces)
    | (.ok snapshot, pieces) => (.ok ⟨∅, snapshot⟩, sent.2, pieces)

/-! ### Rank 0's barrier -/

/-- `apply_pending_publishes()`: rank `g_rank`'s pending entries go into the store. -/
def apply_pending_publishes (g_rank : Int32) (st : pmi_state_t) : pmi_state_t :=
  ⟨∅, st.g_pending_kvs.entries.foldl (fun g_kvs kv => g_kvs.insert (g_rank, kv.1) kv.2) st.g_kvs⟩

def store_remote_publish (msg : wire_msg_t) (client_rank : Int32) (g_kvs : kvs_t) :
    Except String kvs_t :=
  if msg.rank ≠ client_rank then
    .error ("LCT TCP PMI received publish with mismatched rank " ++ toString msg.rank.toInt ++
      " on connection for rank " ++ toString client_rank.toInt)
  else if LCT_PMI_STRING_LIMIT ≤ msg.key.length ∨ LCT_PMI_STRING_LIMIT ≤ msg.value.length then
    .error "LCT TCP PMI publish key/value exceeds LCT_PMI_STRING_LIMIT"
  else .ok (g_kvs.insert (client_rank, msg.key) msg.value)

/-- What rank 0 keeps during its barrier: the store and who has arrived. -/
structure rank0_t where
  g_kvs : kvs_t
  arrived : List Bool
  arrived_count : Nat

/-- The start of `rank0_barrier`: its pending entries applied, and only rank 0 arrived. -/
def rank0_start (g_size : Int32) (st : pmi_state_t) : rank0_t :=
  ⟨(apply_pending_publishes 0 st).g_kvs, (List.replicate g_size.toNatClampNeg false).set 0 true, 1⟩

/-- One message of a client that `poll` reports ready, in `rank0_barrier`'s loop. The unexpected
request type is also answered with an `MSG_ERROR` before the failure; that answer is not
modelled. -/
def serve_msg (client_rank : Int32) (st : rank0_t) (pieces : Pieces) :
    Except String rank0_t × Pieces :=
  match recv_msg pieces with
  | (.error e, pieces) =>
    (.error ("LCT TCP PMI failed receiving barrier message from rank " ++
      toString client_rank.toInt ++ ": " ++ e), pieces)
  | (.ok msg, pieces) =>
    if msg.type = MSG_PUBLISH then
      ((store_remote_publish msg client_rank st.g_kvs).map fun g_kvs => { st with g_kvs }, pieces)
    else if msg.type = MSG_BARRIER then
      if msg.rank ≠ client_rank then
        (.error ("LCT TCP PMI received barrier with mismatched rank " ++ toString msg.rank.toInt ++
          " on connection for rank " ++ toString client_rank.toInt), pieces)
      else
        (.ok { st with arrived := st.arrived.set client_rank.toNatClampNeg true
                       arrived_count := st.arrived_count + 1 }, pieces)
    else if msg.type = MSG_FINALIZE then
      (.error ("LCT TCP PMI rank " ++ toString client_rank.toInt ++
        " finalized before reaching the active barrier"), pieces)
    else
      (.error ("LCT TCP PMI server received unexpected request type " ++
        toString msg.type.toNat ++ " during barrier"), pieces)

/-- `rank0_barrier`'s loop as the polls deliver: `order` names, by their index in `g_clients`,
the clients whose next message is read, one at a time; a client that has arrived is not polled
any more. The state and what is left of every connection. -/
def serve_loop (g_clients : List Int32) : List Nat → rank0_t → (Nat → Pieces) →
    Except String (rank0_t × (Nat → Pieces))
  | [], st, conns => .ok (st, conns)
  | i :: order, st, conns =>
    match g_clients[i]? with
    | none => serve_loop g_clients order st conns
    | some rank =>
      if st.arrived.getD rank.toNatClampNeg true then serve_loop g_clients order st conns
      else
        match serve_msg rank st (conns i) with
        | (.error e, _) => .error e
        | (.ok st', pieces) => serve_loop g_clients order st' (Function.update conns i pieces)

/-- `rank0_barrier()`: rank 0's pending entries applied, the loop over the clients' messages as
the polls deliver them (one that runs out of polls before every rank has arrived is the timeout),
then the store sent on every connection `i`, with its sends `sends i` and its unset fields
`junk i`. The new state, what is left on each connection, and the bytes sent on each. -/
def rank0_barrier (g_size : Int32) (g_timeout_sec : Nat) (g_clients : List Int32)
    (st : pmi_state_t) (order : List Nat) (conns : Nat → Pieces) (junk : Nat → Nat → UInt32)
    (sends : Nat → Nat → sends_t) :
    Except String (pmi_state_t × (Nat → Pieces) × List (List UInt8)) := do
  let (st0, conns) ← serve_loop g_clients order (rank0_start g_size st) conns
  if (st0.arrived_count : Int) < g_size.toInt then
    throw ("Timed out after " ++ toString g_timeout_sec ++ " seconds in LCT TCP barrier (" ++
      toString st0.arrived_count ++ "/" ++ toString g_size.toInt ++ " ranks arrived)")
  let out ← (List.range g_clients.length).mapM fun i =>
    match send_snapshot st0.g_kvs (junk i) (sends i) with
    | (.ok (), bytes) => .ok bytes
    | (.error e, _) => .error e
  return (⟨∅, st0.g_kvs⟩, conns, out)

/-- A barrier of the whole job as it runs on the wire, from the states `sts` in which the ranks
call `barrier()` to the states `sts'` their calls return. The client of rank `r` on connection
`i` writes `bytes i` in its `nonzero_barrier`, with its own unset fields and sends; rank 0's
`rank0_barrier` reads connection `i` as `up i`: those bytes, then whatever the connection carries
later, in any pieces. The client reads `down i`: what rank 0 wrote on its connection, then
anything, in any pieces. -/
def barrier_run (g_size : Int32) (g_clients : List Int32) (sts sts' : Int32 → pmi_state_t) : Prop :=
  ∃ (g_timeout_sec : Nat) (order : List Nat) (junk0 : Nat → Nat → UInt32)
    (sends0 : Nat → Nat → sends_t) (junk : Int32 → Nat → UInt32) (sends : Int32 → Nat → sends_t)
    (up conns down down' : Nat → Pieces) (bytes up_rest down_rest : Nat → List UInt8)
    (out : List (List UInt8)),
    rank0_barrier g_size g_timeout_sec g_clients (sts 0) order up junk0 sends0 =
      .ok (sts' 0, conns, out) ∧
    ∀ i r, g_clients[i]? = some r →
      nonzero_barrier r g_size (sts r) (junk r) (sends r) (down i) = (.ok (sts' r), bytes i, down' i) ∧
      (∀ piece ∈ up i, piece ≠ []) ∧ (up i).flatten = bytes i ++ up_rest i ∧
      (∀ piece ∈ down i, piece ≠ []) ∧ (down i).flatten = out.getD i [] ++ down_rest i

/-! ### The handshake -/

/-- The `hello` a nonzero rank sends in `initialize()`; its `aux` is never set. -/
def hello_msg (g_rank : Int32) (junk : UInt32) : wire_msg_t := ⟨MSG_HELLO, g_rank, junk, [], []⟩

/-- The loop of `accept_rank_clients()`: the connections in the order they are accepted, each
starting with its hello; a client is kept with its rank and what follows its hello. Running out of
connections is the accept timing out, `timeout` the end of that error's text. -/
def accept_loop (g_size : Int32) (timeout : String) :
    List Pieces → List Bool → List (Int32 × Pieces) → Except String (List (Int32 × Pieces))
  | [], _, g_clients =>
    if g_size.toInt - 1 ≤ g_clients.length then .ok g_clients
    else .error ("Timed out waiting for all " ++ toString g_size.toInt ++
      " ranks to join TCP rendezvous at " ++ timeout)
  | conn :: conns, seen_rank, g_clients =>
    if g_size.toInt - 1 ≤ g_clients.length then .ok g_clients
    else
      match recv_msg conn with
      | (.error e, _) => .error ("Failed to read hello from TCP rendezvous client: " ++ e)
      | (.ok hello, rest) =>
        if hello.type ≠ MSG_HELLO ∨ hello.rank ≤ 0 ∨ g_size ≤ hello.rank then
          .error "Invalid TCP rendezvous hello"
        else if seen_rank.getD hello.rank.toNatClampNeg false then
          .error ("Duplicate TCP rendezvous rank " ++ toString hello.rank.toInt)
        else
          accept_loop g_size timeout conns (seen_rank.set hello.rank.toNatClampNeg true)
            (g_clients ++ [(hello.rank, rest)])

/-- `accept_rank_clients()` up to its welcome messages: rank 0 is seen from the start. -/
def accept_rank_clients (g_size : Int32) (timeout : String) (conns : List Pieces) :
    Except String (List (Int32 × Pieces)) :=
  accept_loop g_size timeout conns ((List.replicate g_size.toNatClampNeg false).set 0 true) []

/-! ### The stores' invariant -/

/-- Every `send` of a run accepts at least one byte. -/
def sends_progress (sends : Nat → sends_t) : Prop :=
  ∀ j, 0 ∉ (sends j).header ∧ 0 ∉ (sends j).key ∧ 0 ∉ (sends j).value

/-- What every store of the TCP PMI holds: ranks of the job, keys and values under the PMI
limit, as `store_remote_publish` and `recv_snapshot` check them. -/
def kvs_wf (g_size : Int32) (g_kvs : kvs_t) : Prop :=
  ∀ kv ∈ g_kvs.entries, 0 ≤ kv.1.1 ∧ kv.1.1 < g_size ∧
    kv.1.2.length < LCT_PMI_STRING_LIMIT ∧ kv.2.length < LCT_PMI_STRING_LIMIT

instance (g_size : Int32) (g_kvs : kvs_t) : Decidable (kvs_wf g_size g_kvs) :=
  inferInstanceAs (Decidable (∀ kv ∈ g_kvs.entries, _))

/-- What `publish` lets into the pending entries: keys and values under the PMI limit. -/
def pending_wf (pending : pending_t) : Prop :=
  ∀ kv ∈ pending.entries, kv.1.length < LCT_PMI_STRING_LIMIT ∧ kv.2.length < LCT_PMI_STRING_LIMIT

instance (pending : pending_t) : Decidable (pending_wf pending) :=
  inferInstanceAs (Decidable (∀ kv ∈ pending.entries, _))

theorem le_k_max_wire_string {n : Nat} (h : n < LCT_PMI_STRING_LIMIT) : n ≤ k_max_wire_string := by
  unfold LCT_PMI_STRING_LIMIT at h
  unfold k_max_wire_string
  omega

theorem wire_bytes_ne_nil (msg : wire_msg_t) : wire_bytes msg ≠ [] := by
  apply List.ne_nil_of_length_pos
  simp [wire_bytes]

/-- A run of `send_msg` calls whose writes all make progress puts its messages on the
connection back to back. -/
theorem send_each_of_pos (what : String) {sends : Nat → sends_t} (hsends : sends_progress sends)
    {msgs : List wire_msg_t}
    (hmsgs : ∀ msg ∈ msgs, msg.key.length ≤ k_max_wire_string ∧ msg.value.length ≤ k_max_wire_string)
    (i : Nat) : send_each what sends msgs i = (.ok (), msgs.flatMap wire_bytes) := by
  induction msgs generalizing i with
  | nil => rfl
  | cons msg msgs ih =>
    obtain ⟨hkey, hvalue⟩ := hmsgs msg List.mem_cons_self
    obtain ⟨hh, hk, hv⟩ := hsends i
    rw [send_each, send_msg_of_pos hkey hvalue hh hk hv]
    simp only [ih (fun m hm => hmsgs m (List.mem_cons_of_mem msg hm)), List.flatMap_cons]

theorem send_each_ok {what : String} {sends : Nat → sends_t} {msgs : List wire_msg_t} {i : Nat}
    (h : (send_each what sends msgs i).1 = .ok ()) :
    (send_each what sends msgs i).2 = msgs.flatMap wire_bytes := by
  induction msgs generalizing i with
  | nil => rfl
  | cons msg msgs ih =>
    rw [send_each] at h ⊢
    rcases hsend : send_msg msg (sends i) with ⟨_ | _, out⟩
    · rw [hsend] at h
      cases h
    · have hout := send_msg_ok (show (send_msg msg (sends i)).1 = .ok () by rw [hsend])
      rw [hsend] at h hout
      simp only at h hout ⊢
      rw [ih h, hout, List.flatMap_cons]

/-! ### The snapshot round trip -/

/-- The records of the snapshot: one `MSG_VALUE` per entry, in the store's order. -/
def snapshot_records (g_kvs : kvs_t) (junk : Nat → UInt32) : List wire_msg_t :=
  g_kvs.entries.zipIdx.map fun e => snapshot_record (junk e.2) e.1

/-- What `send_snapshot` writes: the count in an `MSG_OK`, then the records. -/
def snapshot_bytes (g_kvs : kvs_t) (junk : Nat → UInt32) : List UInt8 :=
  wire_bytes ⟨MSG_OK, 0, UInt32.ofNat g_kvs.entries.length, [], []⟩ ++
    (snapshot_records g_kvs junk).flatMap wire_bytes

theorem snapshot_bytes_ne_nil (g_kvs : kvs_t) (junk : Nat → UInt32) :
    snapshot_bytes g_kvs junk ≠ [] := by
  simp [snapshot_bytes, wire_bytes_ne_nil]

theorem snapshot_records_wf {g_size : Int32} {g_kvs : kvs_t} (hwf : kvs_wf g_size g_kvs)
    (junk : Nat → UInt32) :
    ∀ r ∈ snapshot_records g_kvs junk, r.type = MSG_VALUE ∧ 0 ≤ r.rank ∧ r.rank < g_size ∧
      r.key.length < LCT_PMI_STRING_LIMIT ∧ r.value.length < LCT_PMI_STRING_LIMIT := by
  intro r hr
  obtain ⟨e, he, rfl⟩ := List.mem_map.mp hr
  exact ⟨rfl, hwf e.1 (List.fst_mem_of_mem_zipIdx he)⟩

theorem foldl_snapshot_records (g_kvs acc : kvs_t) (junk : Nat → UInt32) :
    (snapshot_records g_kvs junk).foldl (fun m r => m.insert (r.rank, r.key) r.value) acc =
      g_kvs.entries.foldl (fun m kv => m.insert kv.1 kv.2) acc := by
  rw [snapshot_records, List.foldl_map]
  conv_rhs => rw [← List.zipIdx_map_fst 0 g_kvs.entries, List.foldl_map]
  rfl

/-- `send_snapshot` of a well-formed store, all writes making progress: the count, then the
records. -/
theorem send_snapshot_of_pos {g_size : Int32} {g_kvs : kvs_t} (hwf : kvs_wf g_size g_kvs)
    (hcount : g_kvs.entries.length ≤ UINT32_MAX) (junk : Nat → UInt32) {sends : Nat → sends_t}
    (hsends : sends_progress sends) :
    send_snapshot g_kvs junk sends = (.ok (), snapshot_bytes g_kvs junk) := by
  have hrecords : ∀ msg ∈ snapshot_records g_kvs junk,
      msg.key.length ≤ k_max_wire_string ∧ msg.value.length ≤ k_max_wire_string := by
    intro msg hmsg
    obtain ⟨-, -, -, hkey, hvalue⟩ := snapshot_records_wf hwf junk msg hmsg
    exact ⟨le_k_max_wire_string hkey, le_k_max_wire_string hvalue⟩
  rw [send_snapshot, if_neg (by omega), send_each_of_pos _ hsends (by simp [k_max_wire_string]) 0,
    write_then_ok, ← snapshot_records, send_each_of_pos _ hsends hrecords 1]
  simp [snapshot_bytes]

theorem send_snapshot_ok {g_kvs : kvs_t} {junk : Nat → UInt32} {sends : Nat → sends_t}
    (h : (send_snapshot g_kvs junk sends).1 = .ok ()) :
    g_kvs.entries.length ≤ UINT32_MAX ∧ (send_snapshot g_kvs junk sends).2 = snapshot_bytes g_kvs junk := by
  unfold send_snapshot at h ⊢
  by_cases hcount : UINT32_MAX < g_kvs.entries.length
  · rw [if_pos hcount] at h
    cases h
  · rw [if_neg hcount] at h ⊢
    obtain ⟨hok, hrecords, heq⟩ := ok_of_write_then_ok h
    refine ⟨by omega, ?_⟩
    rw [heq, send_each_ok hok, send_each_ok hrecords, snapshot_bytes, snapshot_records]
    simp

/-- `recv_snapshot` over records it accepts, however the stream is cut: the records inserted in
order, and exactly their bytes consumed. -/
theorem recv_snapshot_records {g_size : Int32} (records : List wire_msg_t)
    (hrecords : ∀ r ∈ records, r.type = MSG_VALUE ∧ 0 ≤ r.rank ∧ r.rank < g_size ∧
      r.key.length < LCT_PMI_STRING_LIMIT ∧ r.value.length < LCT_PMI_STRING_LIMIT)
    (acc : kvs_t) {pieces : Pieces} (hne : ∀ piece ∈ pieces, piece ≠ []) {rest : List UInt8}
    (hstream : pieces.flatten = records.flatMap wire_bytes ++ rest) :
    ∃ pieces', recv_snapshot g_size records.length acc pieces =
        (.ok (records.foldl (fun m r => m.insert (r.rank, r.key) r.value) acc), pieces') ∧
      pieces'.flatten = rest ∧ ∀ piece ∈ pieces', piece ≠ [] := by
  induction records generalizing acc pieces with
  | nil => exact ⟨pieces, rfl, by simpa using hstream, hne⟩
  | cons r records ih =>
    obtain ⟨htype, hlo, hhi, hkey, hvalue⟩ := hrecords r List.mem_cons_self
    rw [List.flatMap_cons, List.append_assoc] at hstream
    obtain ⟨p1, hrecv, hf1, hne1⟩ :=
      recv_msg_wire_bytes (le_k_max_wire_string hkey) (le_k_max_wire_string hvalue) hne hstream
    obtain ⟨p2, hrecvs, hf2, hne2⟩ :=
      ih (fun r' hr' => hrecords r' (List.mem_cons_of_mem r hr')) (acc.insert (r.rank, r.key) r.value)
        hne1 hf1
    refine ⟨p2, ?_, hf2, hne2⟩
    have hrank : ¬(r.rank < 0 ∨ g_size ≤ r.rank) := by
      rw [not_or, Int32.not_lt, Int32.not_le]
      exact ⟨hlo, hhi⟩
    rw [List.length_cons, recv_snapshot, hrecv]
    simp only [htype, hrank, List.foldl_cons, hrecvs]
    simp [MSG_VALUE, MSG_ERROR, hkey, hvalue, Nat.not_le_of_lt]

/-- The response read back: the count in an `MSG_OK`, then as many records, rebuilt into a map
with the entries of the one sent. -/
theorem recv_barrier_response_snapshot {g_size : Int32} {g_kvs : kvs_t} (hwf : kvs_wf g_size g_kvs)
    (hcount : g_kvs.entries.length ≤ UINT32_MAX) (junk : Nat → UInt32) {pieces : Pieces}
    (hne : ∀ piece ∈ pieces, piece ≠ []) {rest : List UInt8}
    (hstream : pieces.flatten = snapshot_bytes g_kvs junk ++ rest) :
    ∃ snapshot pieces', recv_barrier_response g_size pieces = (.ok snapshot, pieces') ∧
      (∀ a, snapshot.lookup a = g_kvs.lookup a) ∧ pieces'.flatten = rest ∧
      ∀ piece ∈ pieces', piece ≠ [] := by
  rw [snapshot_bytes, List.append_assoc] at hstream
  obtain ⟨p1, hrecv, hf1, hne1⟩ :=
    recv_msg_wire_bytes (by simp [k_max_wire_string]) (by simp [k_max_wire_string]) hne hstream
  obtain ⟨p2, hrecords, hf2, hne2⟩ :=
    recv_snapshot_records _ (snapshot_records_wf hwf junk) ∅ hne1 hf1
  have haux : (UInt32.ofNat g_kvs.entries.length).toNat = (snapshot_records g_kvs junk).length := by
    rw [UInt32.toNat_ofNat', Nat.mod_eq_of_lt (by unfold UINT32_MAX at hcount; omega)]
    simp [snapshot_records]
  refine ⟨(snapshot_records g_kvs junk).foldl (fun m r => m.insert (r.rank, r.key) r.value) ∅, p2,
    ?_, fun a => ?_, hf2, hne2⟩
  · rw [recv_barrier_response, hrecv]
    simp only
    rw [if_neg (show MSG_OK ≠ MSG_ERROR by decide), if_neg (not_not.mpr rfl), haux, hrecords]
  · have h := lookup_foldl_insert_entries (f := id) Function.injective_id g_kvs ∅ a
    rw [foldl_snapshot_records]
    simpa using h

theorem snapshot_round_trip {g_size : Int32} {g_kvs : kvs_t} (hwf : kvs_wf g_size g_kvs)
    (hcount : g_kvs.entries.length ≤ UINT32_MAX) (junk : Nat → UInt32) {sends : Nat → sends_t}
    (hsends : sends_progress sends) :
    ∃ out, send_snapshot g_kvs junk sends = (.ok (), out) ∧
      ∀ (pieces : Pieces) (rest : List UInt8), (∀ piece ∈ pieces, piece ≠ []) →
        pieces.flatten = out ++ rest →
        ∃ snapshot pieces', recv_barrier_response g_size pieces = (.ok snapshot, pieces') ∧
          (∀ a, snapshot.lookup a = g_kvs.lookup a) ∧ pieces'.flatten = rest := by
  refine ⟨_, send_snapshot_of_pos hwf hcount junk hsends, fun pieces rest hne hstream => ?_⟩
  obtain ⟨snapshot, pieces', hrecv, hlookup, hflat, -⟩ :=
    recv_barrier_response_snapshot hwf hcount junk hne hstream
  exact ⟨snapshot, pieces', hrecv, hlookup, hflat⟩

/-- A store of one entry of rank 1 of two, every `send` taking up to 64 bytes. -/
theorem snapshot_round_trip_one :
    let g_kvs : kvs_t := (∅ : kvs_t).insert (1, [107]) [118]
    kvs_wf 2 g_kvs ∧ g_kvs.entries.length ≤ UINT32_MAX ∧
      sends_progress (fun _ => ⟨[64], [64], [64]⟩) ∧
      ∃ out, send_snapshot g_kvs (fun _ => 0) (fun _ => ⟨[64], [64], [64]⟩) = (.ok (), out) ∧
        ∀ (pieces : Pieces) (rest : List UInt8), (∀ piece ∈ pieces, piece ≠ []) →
          pieces.flatten = out ++ rest →
          ∃ snapshot pieces', recv_barrier_response 2 pieces = (.ok snapshot, pieces') ∧
            (∀ a, snapshot.lookup a = g_kvs.lookup a) ∧ pieces'.flatten = rest :=
  ⟨by decide, by decide, fun _ => ⟨by simp, by simp, by simp⟩,
    snapshot_round_trip (by decide) (by decide) _ fun _ => ⟨by simp, by simp, by simp⟩⟩

/-! ### A nonzero rank's requests -/

section Requests

variable {g_rank : Int32} {pending : pending_t} {junk : Nat → UInt32}

@[simp] theorem barrier_msgs_length :
    (barrier_msgs g_rank pending junk).length = pending.entries.length + 1 := by
  simp [barrier_msgs]

theorem barrier_msgs_getElem?_of_lt {c : Nat} (hc : c < pending.entries.length) :
    (barrier_msgs g_rank pending junk)[c]? =
      some (publish_msg g_rank (junk c) pending.entries[c]) := by
  rw [barrier_msgs, List.getElem?_append_left (by simpa using hc), List.getElem?_map,
    List.getElem?_zipIdx, List.getElem?_eq_getElem hc]
  simp

theorem barrier_msgs_getElem?_length :
    (barrier_msgs g_rank pending junk)[pending.entries.length]? =
      some ⟨MSG_BARRIER, g_rank, junk pending.entries.length, [], []⟩ := by
  rw [barrier_msgs, List.getElem?_append_right (by simp)]
  simp

theorem barrier_msgs_fit (hpending : pending_wf pending) :
    ∀ msg ∈ barrier_msgs g_rank pending junk,
      msg.key.length ≤ k_max_wire_string ∧ msg.value.length ≤ k_max_wire_string := by
  intro msg hmsg
  rcases List.mem_append.mp hmsg with hmsg | hmsg
  · obtain ⟨e, he, rfl⟩ := List.mem_map.mp hmsg
    obtain ⟨hkey, hvalue⟩ := hpending e.1 (List.fst_mem_of_mem_zipIdx he)
    exact ⟨le_k_max_wire_string hkey, le_k_max_wire_string hvalue⟩
  · rw [List.mem_singleton.mp hmsg]
    simp [k_max_wire_string]

/-- `nonzero_barrier` whose writes all make progress: its publishes and its request go out back
to back, and what it returns is the response it reads, with the pending entries cleared. -/
theorem nonzero_barrier_of_pos (g_size : Int32) {st : pmi_state_t}
    (hpending : pending_wf st.g_pending_kvs) (junk : Nat → UInt32) {sends : Nat → sends_t}
    (hsends : sends_progress sends) (pieces : Pieces) :
    nonzero_barrier g_rank g_size st junk sends pieces =
      ((recv_barrier_response g_size pieces).1.map fun snapshot => ⟨∅, snapshot⟩,
        (barrier_msgs g_rank st.g_pending_kvs junk).flatMap wire_bytes,
        (recv_barrier_response g_size pieces).2) := by
  have hfit := @barrier_msgs_fit g_rank st.g_pending_kvs junk hpending
  have hsplit : barrier_msgs g_rank st.g_pending_kvs junk =
      (barrier_msgs g_rank st.g_pending_kvs junk).dropLast ++
        [⟨MSG_BARRIER, g_rank, junk st.g_pending_kvs.entries.length, [], []⟩] := by
    rw [barrier_msgs, List.dropLast_concat]
  have hlast : ∀ msg ∈ [(⟨MSG_BARRIER, g_rank, junk st.g_pending_kvs.entries.length, [], []⟩ :
      wire_msg_t)], msg.key.length ≤ k_max_wire_string ∧ msg.value.length ≤ k_max_wire_string := by
    simp [k_max_wire_string]
  have hinit : ∀ msg ∈ (barrier_msgs g_rank st.g_pending_kvs junk).dropLast,
      msg.key.length ≤ k_max_wire_string ∧ msg.value.length ≤ k_max_wire_string :=
    fun msg hmsg => hfit msg (List.mem_of_mem_dropLast hmsg)
  unfold nonzero_barrier
  rw [send_each_of_pos _ hsends hinit, write_then_ok, send_each_of_pos _ hsends hlast]
  simp only
  conv_rhs => rw [hsplit, List.flatMap_append]
  rcases recv_barrier_response g_size pieces with ⟨_ | snapshot, pieces'⟩ <;> rfl

/-- A `nonzero_barrier` that returned: it wrote its publishes and its request, read a response,
and keeps the snapshot it read with nothing pending. -/
theorem nonzero_barrier_ok {g_size : Int32} {st st' : pmi_state_t} {sends : Nat → sends_t}
    {pieces pieces' : Pieces} {bytes : List UInt8}
    (h : nonzero_barrier g_rank g_size st junk sends pieces = (.ok st', bytes, pieces')) :
    bytes = (barrier_msgs g_rank st.g_pending_kvs junk).flatMap wire_bytes ∧
      ∃ snapshot, recv_barrier_response g_size pieces = (.ok snapshot, pieces') ∧
        st' = ⟨∅, snapshot⟩ := by
  have hsplit : barrier_msgs g_rank st.g_pending_kvs junk =
      (barrier_msgs g_rank st.g_pending_kvs junk).dropLast ++
        [⟨MSG_BARRIER, g_rank, junk st.g_pending_kvs.entries.length, [], []⟩] := by
    rw [barrier_msgs, List.dropLast_concat]
  unfold nonzero_barrier at h
  dsimp only at h
  split at h
  · cases h
  · rename_i hsent
    obtain ⟨hpublish, hrequest, heq⟩ := ok_of_write_then_ok hsent
    split at h
    · cases h
    · rename_i snapshot pieces'' hrecv
      simp only [Prod.mk.injEq, Except.ok.injEq] at h
      obtain ⟨rfl, rfl, rfl⟩ := h
      refine ⟨?_, snapshot, hrecv, rfl⟩
      rw [heq, send_each_ok hpublish, send_each_ok hrequest, hsplit, List.flatMap_append,
        List.dropLast_concat]

end Requests

/-! ### Rank 0's barrier loop -/

/-- A well-formed store stays so when an entry under a rank of the job, within the PMI limit, is
stored. -/
theorem kvs_wf_insert {g_size : Int32} {g_kvs : kvs_t} (h : kvs_wf g_size g_kvs) {r : Int32}
    (hr : 0 ≤ r ∧ r < g_size) {key value : List UInt8} (hkey : key.length < LCT_PMI_STRING_LIMIT)
    (hvalue : value.length < LCT_PMI_STRING_LIMIT) : kvs_wf g_size (g_kvs.insert (r, key) value) := by
  intro kv hkv
  rw [AList.entries_insert] at hkv
  rcases List.mem_cons.mp hkv with rfl | hkv
  · exact ⟨hr.1, hr.2, hkey, hvalue⟩
  · exact h kv ((List.kerase_sublist _ _).subset hkv)

/-- `apply_pending_publishes`: the rank's own keys take its pending values where it has them. -/
theorem lookup_apply_pending_publishes (g_rank : Int32) (st : pmi_state_t) (r : Int32)
    (k : List UInt8) : (apply_pending_publishes g_rank st).g_kvs.lookup (r, k) =
      if r = g_rank then (st.g_pending_kvs.lookup k).or (st.g_kvs.lookup (r, k))
      else st.g_kvs.lookup (r, k) := by
  split_ifs with hr
  · subst hr
    exact lookup_foldl_insert_entries (Prod.mk_right_injective r) st.g_pending_kvs st.g_kvs k
  · have hne : ∀ kv ∈ st.g_pending_kvs.entries, (g_rank, kv.1) ≠ (r, k) :=
      fun kv _ heq => hr (Prod.mk.inj heq).1.symm
    exact lookup_foldl_insert_of_forall_ne (fun kv : Σ _ : List UInt8, List UInt8 => (g_rank, kv.1))
      Sigma.snd hne st.g_kvs

/-- The store stays well formed when rank `g_rank` of the job applies entries `publish` took. -/
theorem kvs_wf_apply_pending_publishes {g_size g_rank : Int32} (hrank : 0 ≤ g_rank ∧ g_rank < g_size)
    {st : pmi_state_t} (hwf : kvs_wf g_size st.g_kvs) (hpending : pending_wf st.g_pending_kvs) :
    kvs_wf g_size (apply_pending_publishes g_rank st).g_kvs := by
  suffices h : ∀ (l : List (Σ _ : List UInt8, List UInt8)), (∀ kv ∈ l, kv ∈ st.g_pending_kvs.entries) →
      ∀ acc, kvs_wf g_size acc →
        kvs_wf g_size (l.foldl (fun g_kvs kv => g_kvs.insert (g_rank, kv.1) kv.2) acc) from
    h _ (fun _ hkv => hkv) _ hwf
  intro l
  induction l with
  | nil => exact fun _ acc hacc => hacc
  | cons kv l ih =>
    intro hl acc hacc
    obtain ⟨hkey, hvalue⟩ := hpending kv (hl kv List.mem_cons_self)
    exact ih (fun kv' hkv' => hl kv' (List.mem_cons_of_mem kv hkv')) _
      (kvs_wf_insert hacc hrank hkey hvalue)

theorem toNatClampNeg_inj {a b : Int32} (ha : 0 ≤ a) (hb : 0 ≤ b)
    (h : a.toNatClampNeg = b.toNatClampNeg) : a = b := by
  rw [Int32.le_iff_toInt_le] at ha hb
  unfold Int32.toNatClampNeg at h
  apply Int32.toInt_inj.mp
  simp at ha hb
  omega

theorem toNatClampNeg_lt {a b : Int32} (ha : 0 ≤ a) (hab : a < b) :
    a.toNatClampNeg < b.toNatClampNeg := by
  rw [Int32.le_iff_toInt_le] at ha
  rw [Int32.lt_iff_toInt_lt] at hab
  unfold Int32.toNatClampNeg
  simp at ha
  omega

theorem toNatClampNeg_ne_zero {a : Int32} (ha : 0 < a) : a.toNatClampNeg ≠ 0 := by
  rw [Int32.lt_iff_toInt_lt] at ha
  unfold Int32.toNatClampNeg
  simp at ha
  omega

theorem ofNat_rank {g_size : Int32} {j : Nat} (hj0 : 0 < j) (hjn : j < g_size.toNatClampNeg) :
    (0 < Int32.ofNat j ∧ Int32.ofNat j < g_size) ∧ (Int32.ofNat j).toNatClampNeg = j := by
  have hj31 : j < 2 ^ 31 := by
    have := Int32.toInt_lt g_size
    unfold Int32.toNatClampNeg at hjn
    omega
  refine ⟨?_, Int32.toNatClampNeg_ofNat_of_lt hj31⟩
  rw [Int32.lt_iff_toInt_lt, Int32.lt_iff_toInt_lt, Int32.toInt_ofNat_of_lt hj31]
  unfold Int32.toNatClampNeg at hjn
  simp
  omega

section Client

variable {base : kvs_t} {pending : pending_t} {junk : Nat → UInt32} {rest : List UInt8}
  {r : Int32} {c : Nat} {st : rank0_t} {conn : Pieces}

/-- A client of rank `r` whose first `c` barrier messages rank 0 has read: its connection holds
the rest, it has arrived once its request is read, and under its rank the store holds the
publishes read so far over `base`. -/
structure ClientInv (base : kvs_t) (pending : pending_t) (junk : Nat → UInt32) (rest : List UInt8)
    (r : Int32) (c : Nat) (st : rank0_t) (conn : Pieces) : Prop where
  served_le : c ≤ pending.entries.length + 1
  pieces_ne : ∀ piece ∈ conn, piece ≠ []
  stream : conn.flatten = ((barrier_msgs r pending junk).drop c).flatMap wire_bytes ++ rest
  arrived : st.arrived.getD r.toNatClampNeg true = decide (c = pending.entries.length + 1)
  store : ∀ k, st.g_kvs.lookup (r, k) =
    ((pending.entries.take c).dlookup k).or (base.lookup (r, k))

theorem ClientInv.of_agree (h : ClientInv base pending junk rest r c st conn) {st' : rank0_t}
    (harrived : st'.arrived.getD r.toNatClampNeg true = st.arrived.getD r.toNatClampNeg true)
    (hstore : ∀ k, st'.g_kvs.lookup (r, k) = st.g_kvs.lookup (r, k)) :
    ClientInv base pending junk rest r c st' conn :=
  ⟨h.served_le, h.pieces_ne, h.stream, harrived.trans h.arrived,
    fun k => (hstore k).trans (h.store k)⟩

theorem ClientInv.serve_publish (h : ClientInv base pending junk rest r c st conn)
    (hpending : pending_wf pending) (hc : c < pending.entries.length) :
    ∃ conn', serve_msg r st conn =
        (.ok { st with g_kvs := st.g_kvs.insert (r, pending.entries[c].1) pending.entries[c].2 },
          conn') ∧
      ClientInv base pending junk rest r (c + 1)
        { st with g_kvs := st.g_kvs.insert (r, pending.entries[c].1) pending.entries[c].2 } conn' := by
  obtain ⟨hkey, hvalue⟩ := hpending _ (List.getElem_mem hc)
  have hstream := h.stream
  rw [drop_eq_cons_of_getElem_eq (barrier_msgs_getElem?_of_lt hc), List.flatMap_cons,
    List.append_assoc] at hstream
  obtain ⟨conn', hrecv, hflat, hne⟩ := recv_msg_wire_bytes (le_k_max_wire_string hkey)
    (le_k_max_wire_string hvalue) h.pieces_ne hstream
  refine ⟨conn', ?_, ⟨by omega, hne, hflat, ?_, fun k => ?_⟩⟩
  · have hsize : ¬(LCT_PMI_STRING_LIMIT ≤ pending.entries[c].1.length ∨
        LCT_PMI_STRING_LIMIT ≤ pending.entries[c].2.length) := by omega
    rw [serve_msg, hrecv]
    simp [publish_msg, store_remote_publish, hsize, Except.map]
  · have hnot : c ≠ pending.entries.length + 1 := by omega
    have hnot' : c + 1 ≠ pending.entries.length + 1 := by omega
    show st.arrived.getD r.toNatClampNeg true = decide (c + 1 = pending.entries.length + 1)
    rw [h.arrived, decide_eq_false hnot, decide_eq_false hnot']
  · rw [dlookup_take_add_one pending.nodupKeys hc]
    by_cases hk : k = pending.entries[c].1
    · subst hk
      simp
    · rw [if_neg hk]
      simp only
      rw [AList.lookup_insert_ne (by simp [hk])]
      exact h.store k

theorem ClientInv.serve_barrier (h : ClientInv base pending junk rest r c st conn)
    (hc : c = pending.entries.length) (hidx : r.toNatClampNeg < st.arrived.length) :
    ∃ conn', serve_msg r st conn =
        (.ok { st with arrived := st.arrived.set r.toNatClampNeg true
                       arrived_count := st.arrived_count + 1 }, conn') ∧
      ClientInv base pending junk rest r (c + 1)
        { st with arrived := st.arrived.set r.toNatClampNeg true
                  arrived_count := st.arrived_count + 1 } conn' := by
  subst hc
  have hstream := h.stream
  rw [drop_eq_cons_of_getElem_eq barrier_msgs_getElem?_length, List.flatMap_cons,
    List.append_assoc] at hstream
  obtain ⟨conn', hrecv, hflat, hne⟩ := recv_msg_wire_bytes (by simp [k_max_wire_string])
    (by simp [k_max_wire_string]) h.pieces_ne hstream
  refine ⟨conn', ?_, ⟨le_refl _, hne, hflat, ?_, fun k => ?_⟩⟩
  · rw [serve_msg, hrecv]
    simp [MSG_BARRIER, MSG_PUBLISH]
  · show (st.arrived.set r.toNatClampNeg true).getD r.toNatClampNeg true =
      decide (pending.entries.length + 1 = pending.entries.length + 1)
    rw [getD_set_self hidx, decide_eq_true rfl]
  · have hstore := h.store k
    rw [List.take_of_length_le (le_refl _)] at hstore
    rw [List.take_of_length_le (by omega)]
    exact hstore

end Client

section Loop

variable {g_size : Int32} {g_clients : List Int32} {base : kvs_t} {pending : Int32 → pending_t}
  {junk : Int32 → Nat → UInt32} {rest : Nat → List UInt8} {served : Nat → Nat} {st : rank0_t}
  {conns : Nat → Pieces}

/-- Rank 0's barrier loop once `served i` messages of the client on connection `i` are read:
every client's invariant, rank 0 arrived from the start, one flag per rank with the count of the
raised ones, other ranks' keys untouched, and the store well formed. -/
structure ServeInv (g_size : Int32) (g_clients : List Int32) (base : kvs_t)
    (pending : Int32 → pending_t) (junk : Int32 → Nat → UInt32) (rest : Nat → List UInt8)
    (served : Nat → Nat) (st : rank0_t) (conns : Nat → Pieces) : Prop where
  client : ∀ i r, g_clients[i]? = some r →
    ClientInv base (pending r) (junk r) (rest i) r (served i) st (conns i)
  arrived_zero : st.arrived.getD 0 false = true
  arrived_length : st.arrived.length = g_size.toNatClampNeg
  arrived_count : st.arrived_count = st.arrived.count true
  store_other : ∀ r k, r ∉ g_clients → st.g_kvs.lookup (r, k) = base.lookup (r, k)
  wf : kvs_wf g_size st.g_kvs

theorem rank_ne_of_ne (hnodup : g_clients.Nodup) {i j : Nat} {r r' : Int32}
    (hi : g_clients[i]? = some r) (hj : g_clients[j]? = some r') (hji : j ≠ i) : r' ≠ r := by
  rintro rfl
  have hjlt : j < g_clients.length := (List.getElem?_eq_some_iff.mp hj).1
  exact hji ((List.getElem?_inj hjlt hnodup).mp (hj.trans hi.symm))

/-- The clients' part of the invariant after client `i` is served: its own step, and the other
clients' flags and keys as they were. -/
theorem ServeInv.client_update (h : ServeInv g_size g_clients base pending junk rest served st conns)
    (hnodup : g_clients.Nodup) {i : Nat} {r : Int32} (hi : g_clients[i]? = some r)
    {st' : rank0_t} {conn' : Pieces}
    (hown : ClientInv base (pending r) (junk r) (rest i) r (served i + 1) st' conn')
    (hagree : ∀ r' ∈ g_clients, r' ≠ r →
      st'.arrived.getD r'.toNatClampNeg true = st.arrived.getD r'.toNatClampNeg true ∧
      ∀ k, st'.g_kvs.lookup (r', k) = st.g_kvs.lookup (r', k)) :
    ∀ j r', g_clients[j]? = some r' → ClientInv base (pending r') (junk r') (rest j) r'
      (Function.update served i (served i + 1) j) st' (Function.update conns i conn' j) := by
  intro j r' hj
  by_cases hji : j = i
  · subst hji
    obtain rfl : r' = r := Option.some_injective _ (hj.symm.trans hi)
    simpa using hown
  · rw [Function.update_of_ne hji, Function.update_of_ne hji]
    obtain ⟨harrived, hstore⟩ :=
      hagree r' (List.mem_of_getElem? hj) (rank_ne_of_ne hnodup hi hj hji)
    exact (h.client j r' hj).of_agree harrived hstore

section Step

variable (hnodup : g_clients.Nodup) (hrange : ∀ r ∈ g_clients, 0 < r ∧ r < g_size)
  (hpending : ∀ r, pending_wf (pending r))
include hnodup hrange hpending

/-- One message read from a client that has not arrived: it is accepted, and the invariant
holds with that client one message further. -/
theorem ServeInv.serve (h : ServeInv g_size g_clients base pending junk rest served st conns)
    {i : Nat} {r : Int32} (hi : g_clients[i]? = some r)
    (hnot : served i < (pending r).entries.length + 1) :
    ∃ st' conn', serve_msg r st (conns i) = (.ok st', conn') ∧
      ServeInv g_size g_clients base pending junk rest (Function.update served i (served i + 1)) st'
        (Function.update conns i conn') := by
  have hc := h.client i r hi
  have hr := hrange r (List.mem_of_getElem? hi)
  rcases Nat.lt_or_ge (served i) (pending r).entries.length with hlt | hge
  · -- a publish: one more key under the client's rank
    obtain ⟨conn', hserve, hown⟩ := hc.serve_publish (hpending r) hlt
    obtain ⟨hkey, hvalue⟩ := hpending r _ (List.getElem_mem hlt)
    refine ⟨_, conn', hserve, ⟨h.client_update hnodup hi hown ?_, h.arrived_zero, h.arrived_length,
      h.arrived_count, ?_, kvs_wf_insert h.wf ⟨Int32.le_of_lt hr.1, hr.2⟩ hkey hvalue⟩⟩
    · intro r' _ hne
      exact ⟨rfl, fun k => AList.lookup_insert_ne (by simp [hne])⟩
    · intro r'' k hr''
      have hne : r'' ≠ r := fun heq => hr'' (heq ▸ List.mem_of_getElem? hi)
      exact (AList.lookup_insert_ne (by simp [hne])).trans (h.store_other r'' k hr'')
  · -- the barrier request: the client's flag goes up
    have hidx : r.toNatClampNeg < st.arrived.length := by
      rw [h.arrived_length]
      exact toNatClampNeg_lt (Int32.le_of_lt hr.1) hr.2
    have hdown : st.arrived.getD r.toNatClampNeg true = false := by
      rw [hc.arrived]
      exact decide_eq_false (by omega)
    obtain ⟨conn', hserve, hown⟩ := hc.serve_barrier (by omega) hidx
    refine ⟨_, conn', hserve, ⟨h.client_update hnodup hi hown ?_, ?_, ?_, ?_, h.store_other, h.wf⟩⟩
    · intro r' hr' hne
      refine ⟨getD_set_of_ne _ (fun heq => hne ?_) _ _, fun k => rfl⟩
      exact toNatClampNeg_inj (Int32.le_of_lt (hrange r' hr').1) (Int32.le_of_lt hr.1) heq.symm
    · exact (getD_set_of_ne _ (toNatClampNeg_ne_zero hr.1) _ _).trans h.arrived_zero
    · exact List.length_set.trans h.arrived_length
    · show st.arrived_count + 1 = (st.arrived.set r.toNatClampNeg true).count true
      rw [count_set_true hdown, h.arrived_count]

/-- **Rank 0's loop, in any order of the polls.** Reading the clients' messages in any order,
skipping the ones that have arrived, never fails, and leaves each client as far as the order
reached it, up to its last message. -/
theorem ServeInv.serve_loop (h : ServeInv g_size g_clients base pending junk rest served st conns)
    (order : List Nat) :
    ∃ served' st' conns', serve_loop g_clients order st conns = .ok (st', conns') ∧
      ServeInv g_size g_clients base pending junk rest served' st' conns' ∧
      ∀ i r, g_clients[i]? = some r →
        served' i = min ((pending r).entries.length + 1) (served i + order.count i) := by
  -- induction on the order of the reads, the state of the loop generalized
  induction order generalizing served st conns with
  | nil =>
    refine ⟨served, st, conns, rfl, h, fun i r hi => ?_⟩
    have := (h.client i r hi).served_le
    simp only [List.count_nil, Nat.add_zero]
    omega
  | cons j order ih =>
    rcases hj : g_clients[j]? with _ | r
    · -- no client on that connection
      obtain ⟨served', st', conns', hloop, h', hserved⟩ := ih h
      refine ⟨served', st', conns', by simp only [serve_loop, hj]; exact hloop, h',
        fun i r hi => ?_⟩
      have hij : j ≠ i := by
        rintro rfl
        rw [hj] at hi
        cases hi
      rw [hserved i r hi, List.count_cons_of_ne hij]
    · by_cases harr : st.arrived.getD r.toNatClampNeg true = true
      · -- an arrived client is not polled any more
        have hdone : served j = (pending r).entries.length + 1 := by
          have harrived := (h.client j r hj).arrived
          rw [harr] at harrived
          exact of_decide_eq_true harrived.symm
        obtain ⟨served', st', conns', hloop, h', hserved⟩ := ih h
        refine ⟨served', st', conns', by simp only [serve_loop, hj, harr, if_true]; exact hloop, h',
          fun i r' hi => ?_⟩
        rw [hserved i r' hi]
        by_cases hij : j = i
        · subst hij
          obtain rfl : r' = r := Option.some_injective _ (hi.symm.trans hj)
          rw [List.count_cons_self, hdone]
          omega
        · rw [List.count_cons_of_ne hij]
      · have hnot : served j < (pending r).entries.length + 1 := by
          have hle := (h.client j r hj).served_le
          have hne : served j ≠ (pending r).entries.length + 1 := by
            intro heq
            apply harr
            rw [(h.client j r hj).arrived, heq, decide_eq_true rfl]
          omega
        obtain ⟨st1, conn1, hserve, h1⟩ := h.serve hnodup hrange hpending hj hnot
        obtain ⟨served', st', conns', hloop, h', hserved⟩ := ih h1
        refine ⟨served', st', conns', ?_, h', fun i r' hi => ?_⟩
        · simp only [serve_loop, hj, harr]
          rw [hserve]
          exact hloop
        · rw [hserved i r' hi]
          by_cases hij : j = i
          · subst hij
            rw [Function.update_self, List.count_cons_self]
            omega
          · rw [Function.update_of_ne (Ne.symm hij), List.count_cons_of_ne hij]

end Step

theorem serve_inv_start (hg : 0 < g_size) (hrange : ∀ r ∈ g_clients, 0 < r ∧ r < g_size)
    (st0 : pmi_state_t) (hwf : kvs_wf g_size st0.g_kvs) (hpending0 : pending_wf st0.g_pending_kvs)
    (hconns : ∀ i r, g_clients[i]? = some r → (∀ piece ∈ conns i, piece ≠ []) ∧
      (conns i).flatten = (barrier_msgs r (pending r) (junk r)).flatMap wire_bytes ++ rest i) :
    ServeInv g_size g_clients (rank0_start g_size st0).g_kvs pending junk rest (fun _ => 0)
      (rank0_start g_size st0) conns := by
  have hlen : 0 < g_size.toNatClampNeg := toNatClampNeg_lt (Int32.le_refl 0) hg
  refine ⟨fun i r hi => ⟨Nat.zero_le _, (hconns i r hi).1, by simpa using (hconns i r hi).2, ?_,
    fun k => by simp⟩, ?_, by simp [rank0_start], ?_, fun _ _ _ => rfl, ?_⟩
  · -- a client's flag starts down
    have hr := hrange r (List.mem_of_getElem? hi)
    show ((List.replicate g_size.toNatClampNeg false).set 0 true).getD r.toNatClampNeg true =
      decide (0 = (pending r).entries.length + 1)
    rw [getD_set_of_ne _ (toNatClampNeg_ne_zero hr.1).symm,
      List.getD_replicate _ (toNatClampNeg_lt (Int32.le_of_lt hr.1) hr.2)]
    simp
  · exact getD_set_self (by simpa using hlen) _ _
  · show 1 = ((List.replicate g_size.toNatClampNeg false).set 0 true).count true
    rw [count_set_true (List.getD_replicate _ hlen)]
    simp [List.count_replicate]
  · exact kvs_wf_apply_pending_publishes ⟨Int32.le_refl 0, hg⟩ hwf hpending0

theorem ServeInv.done_of_arrived_count
    (h : ServeInv g_size g_clients base pending junk rest served st conns)
    (hcount : st.arrived_count = g_size.toNatClampNeg) :
    ∀ i r, g_clients[i]? = some r → served i = (pending r).entries.length + 1 := by
  intro i r hi
  have hall : ∀ b ∈ st.arrived, true = b :=
    List.count_eq_length.mp (by rw [← h.arrived_count, hcount, h.arrived_length])
  have hflag : st.arrived.getD r.toNatClampNeg true = true := by
    rw [List.getD_eq_getElem?_getD]
    cases hget : st.arrived[r.toNatClampNeg]? with
    | none => rfl
    | some b => exact (hall b (List.mem_of_getElem? hget)).symm
  have harrived := (h.client i r hi).arrived
  rw [hflag] at harrived
  exact of_decide_eq_true harrived.symm

theorem ServeInv.arrived_count_of_done (h : ServeInv g_size g_clients base pending junk rest served st conns)
    (hclients : ∀ r, r ∈ g_clients ↔ 0 < r ∧ r < g_size)
    (hdone : ∀ i r, g_clients[i]? = some r → served i = (pending r).entries.length + 1) :
    st.arrived_count = g_size.toNatClampNeg := by
  rw [h.arrived_count, ← h.arrived_length, List.count_eq_length]
  intro b hb
  obtain ⟨j, hj⟩ := List.mem_iff_getElem?.mp hb
  have hflag : st.arrived.getD j true = true := by
    rcases Nat.eq_zero_or_pos j with rfl | hpos
    · have hzero := h.arrived_zero
      rw [List.getD_eq_getElem?_getD, hj] at hzero ⊢
      exact hzero
    · have hjlt : j < g_size.toNatClampNeg := h.arrived_length ▸ (List.getElem?_eq_some_iff.mp hj).1
      obtain ⟨hr, hjr⟩ := ofNat_rank hpos hjlt
      obtain ⟨i, hi⟩ := List.mem_iff_getElem?.mp ((hclients _).mpr hr)
      have harrived := (h.client i _ hi).arrived
      rw [hdone i _ hi, decide_eq_true rfl, hjr] at harrived
      exact harrived
  rw [List.getD_eq_getElem?_getD, hj] at hflag
  exact hflag.symm

/-- A nonzero rank that is not a client's, or rank 0, of the job: none of the job's ranks is
outside both. -/
theorem not_mem_clients_iff {r : Int32} (hclients : ∀ r, r ∈ g_clients ↔ 0 < r ∧ r < g_size)
    (hr : r ∉ g_clients) (hr0 : r ≠ 0) : ¬(0 ≤ r ∧ r < g_size) := by
  rintro ⟨hlo, hhi⟩
  apply hr
  rw [hclients]
  refine ⟨?_, hhi⟩
  rw [Int32.lt_iff_toInt_lt]
  rw [Int32.le_iff_toInt_le] at hlo
  have hne : r.toInt ≠ 0 := fun h0 => hr0 (Int32.toInt_inj.mp (by simpa using h0))
  simp at hlo ⊢
  omega

end Loop

/-- **The barrier's specification.** What a barrier of `g_size` ranks leaves in a store: under
each rank of the job, that rank's pending entries over what the store held. -/
def barrier_kvs (g_size : Int32) (g_kvs : kvs_t) (pending : Int32 → pending_t)
    (a : Int32 × List UInt8) : Option (List UInt8) :=
  if 0 ≤ a.1 ∧ a.1 < g_size then ((pending a.1).lookup a.2).or (g_kvs.lookup a) else g_kvs.lookup a

theorem ServeInv.lookup_of_done {g_size : Int32} (hg : 0 < g_size) {g_clients : List Int32}
    {g_kvs : kvs_t} {pending : Int32 → pending_t} {junk : Int32 → Nat → UInt32}
    {rest : Nat → List UInt8} {served : Nat → Nat} {st : rank0_t} {conns : Nat → Pieces}
    (h : ServeInv g_size g_clients (rank0_start g_size ⟨pending 0, g_kvs⟩).g_kvs pending junk rest
      served st conns)
    (hclients : ∀ r, r ∈ g_clients ↔ 0 < r ∧ r < g_size)
    (hdone : ∀ i r, g_clients[i]? = some r → served i = (pending r).entries.length + 1)
    (a : Int32 × List UInt8) : st.g_kvs.lookup a = barrier_kvs g_size g_kvs pending a := by
  obtain ⟨r, k⟩ := a
  have hbase : (rank0_start g_size ⟨pending 0, g_kvs⟩).g_kvs.lookup (r, k) =
      if r = 0 then ((pending 0).lookup k).or (g_kvs.lookup (r, k)) else g_kvs.lookup (r, k) :=
    lookup_apply_pending_publishes 0 ⟨pending 0, g_kvs⟩ r k
  unfold barrier_kvs
  by_cases hr : r ∈ g_clients
  · -- a client: all its publishes were read
    obtain ⟨hpos, hlt⟩ := (hclients r).mp hr
    obtain ⟨i, hi⟩ := List.mem_iff_getElem?.mp hr
    have hr0 : r ≠ 0 := fun h0 => by rw [h0] at hpos; exact absurd hpos (by decide)
    rw [(h.client i r hi).store k, hdone i r hi, List.take_of_length_le (by omega), hbase,
      if_neg hr0, if_pos ⟨Int32.le_of_lt hpos, hlt⟩]
    rfl
  · rw [h.store_other r k hr, hbase]
    by_cases hr0 : r = 0
    · subst hr0
      rw [if_pos rfl, if_pos ⟨Int32.le_refl 0, hg⟩]
    · rw [if_neg hr0, if_neg (not_mem_clients_iff hclients hr hr0)]

/-- The barrier's store has no more entries than the old store and the ranks' pending entries
together. -/
theorem length_le_of_barrier_kvs {g_size : Int32} {g_clients : List Int32}
    (hclients : ∀ r, r ∈ g_clients ↔ 0 < r ∧ r < g_size) {S g_kvs : kvs_t}
    {pending : Int32 → pending_t} (hS : ∀ a, S.lookup a = barrier_kvs g_size g_kvs pending a) :
    S.entries.length ≤
      g_kvs.entries.length + ((0 :: g_clients).map fun r => (pending r).entries.length).sum := by
  have hsub : ∀ a, (S.lookup a).isSome →
      a ∈ g_kvs.keys ++ (0 :: g_clients).flatMap fun r => (pending r).keys.map (r, ·) := by
    rintro ⟨r, k⟩ ha
    rw [hS, barrier_kvs] at ha
    split_ifs at ha with hr
    · rw [Option.isSome_or, Bool.or_eq_true] at ha
      rcases ha with hk | hold
      · -- a pending key of a rank of the job: rank 0's or a client's
        have hr' : r ∈ 0 :: g_clients := by
          by_cases hr0 : r = 0
          · exact hr0 ▸ List.mem_cons_self
          · refine List.mem_cons_of_mem _ ((hclients r).mpr ⟨?_, hr.2⟩)
            by_contra hneg
            exact not_mem_clients_iff hclients (fun hmem => hneg ((hclients r).mp hmem).1) hr0 hr
        refine List.mem_append_right _ (List.mem_flatMap.mpr ⟨r, hr', List.mem_map.mpr ⟨k, ?_, rfl⟩⟩)
        exact AList.mem_keys.mpr (AList.lookup_isSome.mp hk)
      · exact List.mem_append_left _ (AList.mem_keys.mpr (AList.lookup_isSome.mp hold))
    · exact List.mem_append_left _ (AList.mem_keys.mpr (AList.lookup_isSome.mp ha))
  have hlen := length_entries_le_of_lookup_isSome hsub
  simpa [List.length_flatMap, AList.keys, List.keys, Function.comp_def] using hlen

/-! ### A job of three ranks -/

/-- Rank 0 publishes `a`; rank 1 publishes `a` and `b`; rank 2 publishes `c`. -/
def three_pending (r : Int32) : pending_t :=
  if r = 1 then ((∅ : pending_t).insert [97] [49]).insert [98] [50]
  else if r = 2 then (∅ : pending_t).insert [99] [51]
  else (∅ : pending_t).insert [97] [48]

/-- The store before the barrier: an older `a` of rank 1 and a `d` of rank 2. -/
def three_kvs : kvs_t := ((∅ : kvs_t).insert (1, [97]) [57]).insert (2, [100]) [52]

/-- Rank 2 was accepted first: each client's barrier request arrives in two pieces, followed by
a byte of what it sends next. -/
def three_conns (i : Nat) : Pieces :=
  let r : Int32 := if i = 0 then 2 else 1
  let bytes := (barrier_msgs r (three_pending r) fun _ => 0).flatMap wire_bytes ++ [7]
  if i < 2 then [bytes.take 5, bytes.drop 5] else []

theorem mem_clients_three (r : Int32) : r ∈ ([2, 1] : List Int32) ↔ 0 < r ∧ r < 3 := by
  rw [List.mem_pair, Int32.lt_iff_toInt_lt, Int32.lt_iff_toInt_lt, ← Int32.toInt_inj,
    ← Int32.toInt_inj]
  simp
  omega

theorem conn_three {i : Nat} {r : Int32} (hi : ([2, 1] : List Int32)[i]? = some r) :
    (∀ piece ∈ three_conns i, piece ≠ []) ∧ (three_conns i).flatten =
      (barrier_msgs r (three_pending r) fun _ => 0).flatMap wire_bytes ++ [7] := by
  match i, hi with
  | 0, hi =>
    cases hi
    decide +kernel
  | 1, hi =>
    cases hi
    decide +kernel

theorem three_wf : kvs_wf 3 three_kvs ∧ ∀ r, pending_wf (three_pending r) := by
  refine ⟨by decide +kernel, fun r => ?_⟩
  unfold three_pending
  split_ifs <;> decide +kernel

/-- Rank 0 polls rank 1's connection, then rank 2's, in turn: each is read until its barrier. -/
theorem three_polls (i : Nat) (r : Int32) (hi : ([2, 1] : List Int32)[i]? = some r) :
    (three_pending r).entries.length + 1 ≤ [1, 0, 1, 0, 1].count i := by
  match i, hi with
  | 0, hi =>
    cases hi
    decide
  | 1, hi =>
    cases hi
    decide

theorem rank0_barrier_loop {g_size : Int32} (hg : 0 < g_size) {g_clients : List Int32}
    (hnodup : g_clients.Nodup) (hclients : ∀ r, r ∈ g_clients ↔ 0 < r ∧ r < g_size)
    {g_kvs : kvs_t} (hwf : kvs_wf g_size g_kvs) {pending : Int32 → pending_t}
    (hpending : ∀ r, pending_wf (pending r)) (junk : Int32 → Nat → UInt32)
    {conns : Nat → Pieces} {rest : Nat → List UInt8}
    (hconns : ∀ i r, g_clients[i]? = some r → (∀ piece ∈ conns i, piece ≠ []) ∧
      (conns i).flatten = (barrier_msgs r (pending r) (junk r)).flatMap wire_bytes ++ rest i)
    (order : List Nat) :
    ∃ st conns', serve_loop g_clients order (rank0_start g_size ⟨pending 0, g_kvs⟩) conns =
        .ok (st, conns') ∧
      (st.arrived_count = g_size.toNatClampNeg ↔
        ∀ i r, g_clients[i]? = some r → (pending r).entries.length + 1 ≤ order.count i) ∧
      ((∀ i r, g_clients[i]? = some r → (pending r).entries.length + 1 ≤ order.count i) →
        (∀ a, st.g_kvs.lookup a = barrier_kvs g_size g_kvs pending a) ∧
        ∀ i r, g_clients[i]? = some r → (conns' i).flatten = rest i) := by
  have hrange : ∀ r ∈ g_clients, 0 < r ∧ r < g_size := fun r hr => (hclients r).mp hr
  obtain ⟨served, st, conns', hloop, h, hserved⟩ :=
    (serve_inv_start hg hrange ⟨pending 0, g_kvs⟩ hwf (hpending 0) hconns).serve_loop hnodup hrange
      hpending order
  have hdone_iff : (∀ i r, g_clients[i]? = some r → served i = (pending r).entries.length + 1) ↔
      ∀ i r, g_clients[i]? = some r → (pending r).entries.length + 1 ≤ order.count i := by
    refine ⟨fun hdone i r hi => ?_, fun hcover i r hi => ?_⟩
    · have hmin := hserved i r hi
      rw [hdone i r hi] at hmin
      omega
    · have hc := hcover i r hi
      rw [hserved i r hi]
      omega
  refine ⟨st, conns', hloop, ⟨fun hcount => hdone_iff.mp (h.done_of_arrived_count hcount),
    fun hcover => h.arrived_count_of_done hclients (hdone_iff.mpr hcover)⟩,
    fun hcover => ⟨h.lookup_of_done hg hclients (hdone_iff.mpr hcover), fun i r hi => ?_⟩⟩
  have hstream := (h.client i r hi).stream
  rw [hdone_iff.mpr hcover i r hi, List.drop_of_length_le (by simp)] at hstream
  simpa using hstream

/-- Three ranks, every one with pending entries over an older store, the two clients polled in
turn and their requests read in pieces: rank 1's `a` replaces the older one, rank 2's `d`
stays. -/
theorem rank0_barrier_loop_three :
    (0 : Int32) < 3 ∧ ([2, 1] : List Int32).Nodup ∧ kvs_wf 3 three_kvs ∧
      (∀ r, pending_wf (three_pending r)) ∧
      (∀ i r, ([2, 1] : List Int32)[i]? = some r →
        (three_pending r).entries.length + 1 ≤ [1, 0, 1, 0, 1].count i) ∧
      barrier_kvs 3 three_kvs three_pending (1, [97]) = some [49] ∧
      barrier_kvs 3 three_kvs three_pending (2, [100]) = some [52] ∧
      barrier_kvs 3 three_kvs three_pending (0, [97]) = some [48] ∧
      ∃ st conns', serve_loop [2, 1] [1, 0, 1, 0, 1] (rank0_start 3 ⟨three_pending 0, three_kvs⟩)
          three_conns = .ok (st, conns') ∧
        (st.arrived_count = (3 : Int32).toNatClampNeg ↔
          ∀ i r, ([2, 1] : List Int32)[i]? = some r →
            (three_pending r).entries.length + 1 ≤ [1, 0, 1, 0, 1].count i) ∧
        ((∀ i r, ([2, 1] : List Int32)[i]? = some r →
            (three_pending r).entries.length + 1 ≤ [1, 0, 1, 0, 1].count i) →
          (∀ a, st.g_kvs.lookup a = barrier_kvs 3 three_kvs three_pending a) ∧
          ∀ i r, ([2, 1] : List Int32)[i]? = some r → (conns' i).flatten = [7]) :=
  ⟨by decide, by decide, three_wf.1, three_wf.2, three_polls, by decide +kernel, by decide +kernel,
    by decide +kernel, @rank0_barrier_loop 3 (by decide) [2, 1] (by decide) mem_clients_three
      three_kvs three_wf.1 three_pending three_wf.2 (fun _ _ => 0) three_conns (fun _ => [7])
      (fun _ _ hi => conn_three hi) [1, 0, 1, 0, 1]⟩

/-- `rank0_barrier` whose loop saw every rank arrive, with a store the snapshot can carry: no
timeout, and the snapshot sent on every connection. -/
theorem rank0_barrier_of_loop {g_size : Int32} (g_timeout_sec : Nat)
    {g_clients : List Int32} {st : pmi_state_t} {order : List Nat} {conns conns' : Nat → Pieces}
    {S : rank0_t} (hloop : serve_loop g_clients order (rank0_start g_size st) conns = .ok (S, conns'))
    (hcount : S.arrived_count = g_size.toNatClampNeg) (hwf : kvs_wf g_size S.g_kvs)
    (hsize : S.g_kvs.entries.length ≤ UINT32_MAX) (junk : Nat → Nat → UInt32)
    {sends : Nat → Nat → sends_t} (hsends : ∀ i, sends_progress (sends i)) :
    rank0_barrier g_size g_timeout_sec g_clients st order conns junk sends =
      .ok (⟨∅, S.g_kvs⟩, conns', (List.range g_clients.length).map fun i =>
        snapshot_bytes S.g_kvs (junk i)) := by
  have hnot : ¬((S.arrived_count : Int) < g_size.toInt) := by
    rw [hcount]
    unfold Int32.toNatClampNeg
    omega
  have hsent : (List.range g_clients.length).mapM (fun i =>
      match send_snapshot S.g_kvs (junk i) (sends i) with
      | (.ok (), bytes) => Except.ok bytes
      | (.error e, _) => .error e) =
      .ok ((List.range g_clients.length).map fun i => snapshot_bytes S.g_kvs (junk i)) :=
    mapM_eq_ok fun i _ => by rw [send_snapshot_of_pos hwf hsize (junk i) (hsends i)]
  rw [rank0_barrier, hloop]
  simp only [bind, Except.bind, hnot, if_false, hsent]
  rfl

/-- A `rank0_barrier` that returned: its loop saw every rank arrive, and each connection got the
bytes of a `send_snapshot` of the store that succeeded. -/
theorem rank0_barrier_ok {g_size : Int32} {g_timeout_sec : Nat} {g_clients : List Int32}
    {st st' : pmi_state_t} {order : List Nat} {conns conns' : Nat → Pieces}
    {junk : Nat → Nat → UInt32} {sends : Nat → Nat → sends_t} {out : List (List UInt8)}
    (h : rank0_barrier g_size g_timeout_sec g_clients st order conns junk sends =
      .ok (st', conns', out)) :
    ∃ S, serve_loop g_clients order (rank0_start g_size st) conns = .ok (S, conns') ∧
      g_size.toInt ≤ S.arrived_count ∧ st' = ⟨∅, S.g_kvs⟩ ∧
      List.Forall₂ (fun i bytes => send_snapshot S.g_kvs (junk i) (sends i) = (.ok (), bytes))
        (List.range g_clients.length) out := by
  unfold rank0_barrier at h
  rcases hloop : serve_loop g_clients order (rank0_start g_size st) conns with _ | ⟨S, conns''⟩
  · rw [hloop] at h
    cases h
  · rw [hloop] at h
    simp only [bind, Except.bind] at h
    by_cases hlate : (S.arrived_count : Int) < g_size.toInt
    · rw [if_pos hlate] at h
      cases h
    · rw [if_neg hlate] at h
      rcases hsent : (List.range g_clients.length).mapM (fun i =>
          match send_snapshot S.g_kvs (junk i) (sends i) with
          | (.ok (), bytes) => Except.ok bytes
          | (.error e, _) => .error e) with _ | out'
      · rw [hsent] at h
        cases h
      · rw [hsent] at h
        simp only [pure, Except.pure, Except.ok.injEq, Prod.mk.injEq] at h
        obtain ⟨rfl, rfl, rfl⟩ := h
        refine ⟨S, rfl, by omega, rfl, (forall₂_of_mapM_eq_ok hsent).imp fun i bytes hi => ?_⟩
        rcases hsnap : send_snapshot S.g_kvs (junk i) (sends i) with ⟨_ | _, b⟩
        · rw [hsnap] at hi
          cases hi
        · rw [hsnap] at hi
          cases hi
          rfl

/-- Rank 0's half of a barrier whose writes make progress and whose polls read every client to
the end: the store it keeps and sends on every connection is the barrier's. -/
theorem rank0_barrier_of_progress {g_size : Int32} (hg : 0 < g_size) {g_clients : List Int32}
    (hnodup : g_clients.Nodup) (hclients : ∀ r, r ∈ g_clients ↔ 0 < r ∧ r < g_size)
    {st : Int32 → pmi_state_t} (hwf : kvs_wf g_size (st 0).g_kvs)
    (hpending : ∀ r, pending_wf (st r).g_pending_kvs)
    (hcount : (st 0).g_kvs.entries.length +
      ((0 :: g_clients).map fun r => (st r).g_pending_kvs.entries.length).sum ≤ UINT32_MAX)
    {junk : Int32 → Nat → UInt32} (g_timeout_sec : Nat) {order : List Nat}
    (horder : ∀ i r, g_clients[i]? = some r →
      (st r).g_pending_kvs.entries.length + 1 ≤ order.count i)
    (junk0 : Nat → Nat → UInt32) {sends0 : Nat → Nat → sends_t}
    (hsends0 : ∀ i, sends_progress (sends0 i)) {up : Nat → Pieces} {up_rest : Nat → List UInt8}
    (hup : ∀ i r, g_clients[i]? = some r → (∀ piece ∈ up i, piece ≠ []) ∧
      (up i).flatten = (barrier_msgs r (st r).g_pending_kvs (junk r)).flatMap wire_bytes ++ up_rest i) :
    ∃ (S : kvs_t) (conns : Nat → Pieces),
      rank0_barrier g_size g_timeout_sec g_clients (st 0) order up junk0 sends0 =
        .ok (⟨∅, S⟩, conns, (List.range g_clients.length).map fun i => snapshot_bytes S (junk0 i)) ∧
      kvs_wf g_size S ∧ S.entries.length ≤ UINT32_MAX ∧
      (∀ a, S.lookup a = barrier_kvs g_size (st 0).g_kvs (fun r => (st r).g_pending_kvs) a) ∧
      ∀ i r, g_clients[i]? = some r → (conns i).flatten = up_rest i := by
  have hrange : ∀ r ∈ g_clients, 0 < r ∧ r < g_size := fun r hr => (hclients r).mp hr
  obtain ⟨served, S, conns', hloop, h, hserved⟩ :=
    (serve_inv_start hg hrange (st 0) hwf (hpending 0) hup).serve_loop hnodup hrange hpending order
  have hdone : ∀ i r, g_clients[i]? = some r →
      served i = (st r).g_pending_kvs.entries.length + 1 := by
    intro i r hi
    have hc := horder i r hi
    rw [hserved i r hi]
    omega
  have hlookup : ∀ a, S.g_kvs.lookup a =
      barrier_kvs g_size (st 0).g_kvs (fun r => (st r).g_pending_kvs) a :=
    h.lookup_of_done hg hclients hdone
  have hsize : S.g_kvs.entries.length ≤ UINT32_MAX :=
    (length_le_of_barrier_kvs hclients hlookup).trans hcount
  refine ⟨S.g_kvs, conns', rank0_barrier_of_loop g_timeout_sec hloop
    (h.arrived_count_of_done hclients hdone) h.wf hsize junk0 hsends0, h.wf, hsize, hlookup,
    fun i r hi => ?_⟩
  have hstream := (h.client i r hi).stream
  rw [hdone i r hi, List.drop_of_length_le (by simp)] at hstream
  simpa using hstream

/-- A nonzero rank's half: writing with progress and reading the snapshot of a store rank 0 can
send, it returns with that store and nothing pending. -/
theorem nonzero_barrier_of_snapshot {g_rank g_size : Int32} {S : kvs_t} (hwf : kvs_wf g_size S)
    (hsize : S.entries.length ≤ UINT32_MAX) {st : pmi_state_t} (hpending : pending_wf st.g_pending_kvs)
    (junk : Nat → UInt32) {sends : Nat → sends_t} (hsends : sends_progress sends)
    (junk0 : Nat → UInt32) {down : Pieces} {down_rest : List UInt8}
    (hne : ∀ piece ∈ down, piece ≠ []) (hdown : down.flatten = snapshot_bytes S junk0 ++ down_rest) :
    ∃ snapshot down', nonzero_barrier g_rank g_size st junk sends down =
        (.ok ⟨∅, snapshot⟩, (barrier_msgs g_rank st.g_pending_kvs junk).flatMap wire_bytes, down') ∧
      (∀ a, snapshot.lookup a = S.lookup a) ∧ down'.flatten = down_rest := by
  obtain ⟨snapshot, down', hrecv, hsnap, hflat, -⟩ := recv_barrier_response_snapshot hwf hsize junk0 hne hdown
  refine ⟨snapshot, down', ?_, hsnap, hflat⟩
  rw [nonzero_barrier_of_pos g_size hpending junk hsends down, hrecv]
  rfl

theorem barrier_exchange {g_size : Int32} (hg : 0 < g_size) {g_clients : List Int32}
    (hnodup : g_clients.Nodup) (hclients : ∀ r, r ∈ g_clients ↔ 0 < r ∧ r < g_size)
    {st : Int32 → pmi_state_t} (hwf : kvs_wf g_size (st 0).g_kvs)
    (hpending : ∀ r, pending_wf (st r).g_pending_kvs)
    (hcount : (st 0).g_kvs.entries.length +
      ((0 :: g_clients).map fun r => (st r).g_pending_kvs.entries.length).sum ≤ UINT32_MAX)
    (junk : Int32 → Nat → UInt32) {sends : Int32 → Nat → sends_t}
    (hsends : ∀ r, sends_progress (sends r)) (g_timeout_sec : Nat) {order : List Nat}
    (horder : ∀ i r, g_clients[i]? = some r →
      (st r).g_pending_kvs.entries.length + 1 ≤ order.count i)
    (junk0 : Nat → Nat → UInt32) {sends0 : Nat → Nat → sends_t}
    (hsends0 : ∀ i, sends_progress (sends0 i)) {up : Nat → Pieces} {up_rest : Nat → List UInt8}
    (hup : ∀ i r, g_clients[i]? = some r → (∀ piece ∈ up i, piece ≠ []) ∧
      (up i).flatten = (barrier_msgs r (st r).g_pending_kvs (junk r)).flatMap wire_bytes ++ up_rest i) :
    ∃ st0 conns out, rank0_barrier g_size g_timeout_sec g_clients (st 0) order up junk0 sends0 =
        .ok (st0, conns, out) ∧
      st0.g_pending_kvs = ∅ ∧
      (∀ a, st0.g_kvs.lookup a = barrier_kvs g_size (st 0).g_kvs (fun r => (st r).g_pending_kvs) a) ∧
      (∀ i r, g_clients[i]? = some r → (conns i).flatten = up_rest i) ∧
      ∀ i r, g_clients[i]? = some r → ∀ (down : Pieces) (down_rest : List UInt8),
        (∀ piece ∈ down, piece ≠ []) → down.flatten = out.getD i [] ++ down_rest →
        ∃ st' down', nonzero_barrier r g_size (st r) (junk r) (sends r) down =
            (.ok st', (barrier_msgs r (st r).g_pending_kvs (junk r)).flatMap wire_bytes, down') ∧
          st'.g_pending_kvs = ∅ ∧
          (∀ a, st'.g_kvs.lookup a =
            barrier_kvs g_size (st 0).g_kvs (fun r => (st r).g_pending_kvs) a) ∧
          down'.flatten = down_rest := by
  obtain ⟨S, conns, h0, hwfS, hsize, hlookup, hconns⟩ := rank0_barrier_of_progress hg hnodup hclients
    hwf hpending hcount g_timeout_sec horder junk0 hsends0 hup
  refine ⟨_, conns, _, h0, rfl, hlookup, hconns, fun i r hi down down_rest hne hdown => ?_⟩
  have hi_lt : i < g_clients.length := (List.getElem?_eq_some_iff.mp hi).1
  rw [List.getD_eq_getElem?_getD, List.getElem?_map, List.getElem?_range hi_lt] at hdown
  obtain ⟨snapshot, down', hcall, hsnap, hflat⟩ :=
    nonzero_barrier_of_snapshot hwfS hsize (hpending r) (junk r) (hsends r) (junk0 i) hne hdown
  exact ⟨_, down', hcall, rfl, fun a => (hsnap a).trans (hlookup a), hflat⟩

/-- The job of three ranks, every `send` taking three bytes, then seven: rank 0 answers both
clients with the barrier's store, and each client that reads its answer in any pieces ends
with that store. -/
theorem barrier_exchange_three :
    let sends : Nat → sends_t := fun _ => ⟨[3, 7], [3, 7], [3, 7]⟩
    let st : Int32 → pmi_state_t := fun r => ⟨three_pending r, three_kvs⟩
    (0 : Int32) < 3 ∧ sends_progress sends ∧
      (st 0).g_kvs.entries.length + ((0 :: ([2, 1] : List Int32)).map fun r =>
        (st r).g_pending_kvs.entries.length).sum ≤ UINT32_MAX ∧
      barrier_kvs 3 three_kvs three_pending (1, [97]) = some [49] ∧
      ∃ st0 conns out, rank0_barrier 3 30 [2, 1] (st 0) [1, 0, 1, 0, 1] three_conns (fun _ _ => 0)
          (fun _ => sends) = .ok (st0, conns, out) ∧
        st0.g_pending_kvs = ∅ ∧
        (∀ a, st0.g_kvs.lookup a = barrier_kvs 3 three_kvs (fun r => (st r).g_pending_kvs) a) ∧
        (∀ i r, ([2, 1] : List Int32)[i]? = some r → (conns i).flatten = [7]) ∧
        ∀ i r, ([2, 1] : List Int32)[i]? = some r → ∀ (down : Pieces) (down_rest : List UInt8),
          (∀ piece ∈ down, piece ≠ []) → down.flatten = out.getD i [] ++ down_rest →
          ∃ st' down', nonzero_barrier r 3 (st r) (fun _ => 0) sends down =
              (.ok st', (barrier_msgs r (st r).g_pending_kvs fun _ => 0).flatMap wire_bytes, down') ∧
            st'.g_pending_kvs = ∅ ∧
            (∀ a, st'.g_kvs.lookup a = barrier_kvs 3 three_kvs (fun r => (st r).g_pending_kvs) a) ∧
            down'.flatten = down_rest :=
  ⟨by decide, fun _ => ⟨by simp, by simp, by simp⟩, by decide +kernel, by decide +kernel,
    @barrier_exchange 3 (by decide) [2, 1] (by decide) mem_clients_three
      (fun r => ⟨three_pending r, three_kvs⟩) three_wf.1 (fun r => three_wf.2 r) (by decide +kernel)
      (fun _ _ => 0) _ (fun _ _ => ⟨by simp, by simp, by simp⟩) 30 [1, 0, 1, 0, 1] three_polls
      (fun _ _ => 0) _ (fun _ _ => ⟨by simp, by simp, by simp⟩) three_conns (fun _ => [7])
      (fun _ _ hi => conn_three hi)⟩

theorem count_flatten_replicate_range {M n i : Nat} (hi : i < n) :
    ((List.replicate M (List.range n)).flatten).count i = M := by
  rw [List.count_flatten, List.map_replicate, List.sum_replicate,
    List.count_eq_one_of_mem List.nodup_range (List.mem_range.mpr hi)]
  simp

/-- Every job in a well-formed state can complete a barrier: with writes of one byte at a time
and polls reading every client in turn. -/
theorem barrier_run_exists {g_size : Int32} (hg : 0 < g_size) {g_clients : List Int32}
    (hnodup : g_clients.Nodup) (hclients : ∀ r, r ∈ g_clients ↔ 0 < r ∧ r < g_size)
    {sts : Int32 → pmi_state_t} (hwf : kvs_wf g_size (sts 0).g_kvs)
    (hpending : ∀ r, pending_wf (sts r).g_pending_kvs)
    (hcount : (sts 0).g_kvs.entries.length +
      ((0 :: g_clients).map fun r => (sts r).g_pending_kvs.entries.length).sum ≤ UINT32_MAX) :
    ∃ sts', barrier_run g_size g_clients sts sts' := by
  have hsends : sends_progress fun _ => ⟨[1], [1], [1]⟩ := fun _ => ⟨by simp, by simp, by simp⟩
  let bytes : Nat → List UInt8 := fun i => match g_clients[i]? with
    | some r => (barrier_msgs r (sts r).g_pending_kvs fun _ => 0).flatMap wire_bytes
    | none => []
  have hup : ∀ i r, g_clients[i]? = some r → (∀ piece ∈ [bytes i], piece ≠ []) ∧
      [bytes i].flatten = (barrier_msgs r (sts r).g_pending_kvs fun _ => 0).flatMap wire_bytes ++ [] := by
    intro i r hi
    simp only [bytes, hi]
    refine ⟨fun piece hp => ?_, by simp⟩
    rw [List.mem_singleton.mp hp]
    simp [barrier_msgs, wire_bytes_ne_nil]
  have horder : ∀ i r, g_clients[i]? = some r → (sts r).g_pending_kvs.entries.length + 1 ≤
      ((List.replicate (((0 :: g_clients).map fun r => (sts r).g_pending_kvs.entries.length).sum + 1)
        (List.range g_clients.length)).flatten).count i := by
    intro i r hi
    rw [count_flatten_replicate_range (List.getElem?_eq_some_iff.mp hi).1]
    have hle := List.le_sum_of_mem (List.mem_map_of_mem (f := fun r => (sts r).g_pending_kvs.entries.length)
      (List.mem_cons_of_mem 0 (List.mem_of_getElem? hi)))
    omega
  obtain ⟨S, conns, h0, hwfS, hsize, -, -⟩ := rank0_barrier_of_progress hg hnodup hclients hwf
    hpending hcount 0 horder (fun _ _ => 0) (fun _ => hsends) hup
  obtain ⟨snapshot, down', hrecv, -, -, -⟩ := recv_barrier_response_snapshot hwfS hsize (fun _ => 0)
    (fun piece hp => (List.mem_singleton.mp hp) ▸ snapshot_bytes_ne_nil S fun _ => 0)
    (show [snapshot_bytes S fun _ => 0].flatten = snapshot_bytes S (fun _ => 0) ++ [] by simp)
  refine ⟨fun r => if r = 0 then ⟨∅, S⟩ else ⟨∅, snapshot⟩, 0, _, fun _ _ => 0,
    fun _ _ => ⟨[1], [1], [1]⟩, fun _ _ => 0, fun _ _ => ⟨[1], [1], [1]⟩, fun i => [bytes i], conns,
    fun _ => [snapshot_bytes S fun _ => 0], fun _ => down', bytes, fun _ => [], fun _ => [], _,
    by simpa using h0, fun i r hi => ⟨?_, (hup i r hi).1, by simp, ?_, ?_⟩⟩
  · have hr0 : r ≠ 0 := fun h0 => by
      have := ((hclients r).mp (List.mem_of_getElem? hi)).1
      rw [h0] at this
      exact absurd this (by decide)
    rw [nonzero_barrier_of_pos g_size (hpending r) _ hsends, hrecv]
    simp [hr0, bytes, hi, Except.map]
  · intro piece hp
    rw [List.mem_singleton.mp hp]
    exact snapshot_bytes_ne_nil S fun _ => 0
  · have hi_lt : i < g_clients.length := (List.getElem?_eq_some_iff.mp hi).1
    simp [List.getD_eq_getElem?_getD, hi_lt]

/-- Every barrier that completes leaves each rank of the job with nothing pending and the
barrier's store. -/
theorem barrier_run_lookup {g_size : Int32} (hg : 0 < g_size) {g_clients : List Int32}
    (hnodup : g_clients.Nodup) (hclients : ∀ r, r ∈ g_clients ↔ 0 < r ∧ r < g_size)
    {sts sts' : Int32 → pmi_state_t} (hwf : kvs_wf g_size (sts 0).g_kvs)
    (hpending : ∀ r, pending_wf (sts r).g_pending_kvs) (hrun : barrier_run g_size g_clients sts sts') :
    ∀ r, 0 ≤ r → r < g_size → (sts' r).g_pending_kvs = ∅ ∧
      ∀ a, (sts' r).g_kvs.lookup a =
        barrier_kvs g_size (sts 0).g_kvs (fun r => (sts r).g_pending_kvs) a := by
  obtain ⟨_, order, junk0, sends0, junk, sends, up, conns, down, down', bytes, up_rest, down_rest, out,
    h0, hclient⟩ := hrun
  obtain ⟨S, hloop, hlate, h0eq, hout⟩ := rank0_barrier_ok h0
  have hrange : ∀ r ∈ g_clients, 0 < r ∧ r < g_size := fun r hr => (hclients r).mp hr
  -- what rank 0 read on each connection is what its client wrote
  have hup : ∀ i r, g_clients[i]? = some r → (∀ piece ∈ up i, piece ≠ []) ∧
      (up i).flatten = (barrier_msgs r (sts r).g_pending_kvs (junk r)).flatMap wire_bytes ++ up_rest i := by
    intro i r hi
    obtain ⟨hcall, hne, hflat, -, -⟩ := hclient i r hi
    rw [(nonzero_barrier_ok hcall).1] at hflat
    exact ⟨hne, hflat⟩
  obtain ⟨served, S', conns', hloop', h, -⟩ :=
    (serve_inv_start hg hrange (sts 0) hwf (hpending 0) hup).serve_loop hnodup hrange hpending order
  rw [hloop] at hloop'
  cases hloop'
  have hcount : S.arrived_count = g_size.toNatClampNeg := by
    have hle : S.arrived_count ≤ g_size.toNatClampNeg := by
      rw [h.arrived_count, ← h.arrived_length]
      exact List.count_le_length
    unfold Int32.toNatClampNeg at hle ⊢
    omega
  have hlookup := h.lookup_of_done hg hclients (h.done_of_arrived_count hcount)
  intro r hr0 hrn
  by_cases hzero : r = 0
  · subst hzero
    rw [h0eq]
    exact ⟨rfl, hlookup⟩
  · -- a client reads back the snapshot rank 0 sent on its connection
    have hpos : 0 < r := by
      rw [Int32.lt_iff_toInt_lt]
      rw [Int32.le_iff_toInt_le] at hr0
      have hne : r.toInt ≠ 0 := fun h0 => hzero (Int32.toInt_inj.mp (by simpa using h0))
      simp at hr0 ⊢
      omega
    obtain ⟨i, hi⟩ := List.mem_iff_getElem?.mp ((hclients r).mpr ⟨hpos, hrn⟩)
    obtain ⟨hcall, -, -, hdne, hdflat⟩ := hclient i r hi
    obtain ⟨-, snapshot, hrecv, hst⟩ := nonzero_barrier_ok hcall
    obtain ⟨b, hget, hsnap⟩ := exists_of_forall₂ hout
      (List.getElem?_range (List.getElem?_eq_some_iff.mp hi).1)
    obtain ⟨hsize, hbytes⟩ := send_snapshot_ok (show (send_snapshot _ _ _).1 = .ok () by rw [hsnap])
    rw [hsnap] at hbytes
    rw [List.getD_eq_getElem?_getD, hget, Option.getD_some, show b = _ from hbytes] at hdflat
    obtain ⟨snapshot', down'', hrecv', hsnap', -, -⟩ :=
      recv_barrier_response_snapshot h.wf hsize (junk0 i) hdne hdflat
    rw [hrecv] at hrecv'
    cases hrecv'
    rw [hst]
    exact ⟨rfl, fun a => (hsnap' a).trans (hlookup a)⟩

theorem barrier_run_stores {g_size : Int32} (hg : 0 < g_size) {g_clients : List Int32}
    (hnodup : g_clients.Nodup) (hclients : ∀ r, r ∈ g_clients ↔ 0 < r ∧ r < g_size)
    {sts : Int32 → pmi_state_t} (hwf : kvs_wf g_size (sts 0).g_kvs)
    (hpending : ∀ r, pending_wf (sts r).g_pending_kvs)
    (hcount : (sts 0).g_kvs.entries.length +
      ((0 :: g_clients).map fun r => (sts r).g_pending_kvs.entries.length).sum ≤ UINT32_MAX) :
    (∃ sts', barrier_run g_size g_clients sts sts') ∧
      ∀ sts', barrier_run g_size g_clients sts sts' →
        ∀ r, 0 ≤ r → r < g_size → (sts' r).g_pending_kvs = ∅ ∧
          ∀ a, (sts' r).g_kvs.lookup a =
            barrier_kvs g_size (sts 0).g_kvs (fun r => (sts r).g_pending_kvs) a :=
  ⟨barrier_run_exists hg hnodup hclients hwf hpending hcount,
    fun _ hrun => barrier_run_lookup hg hnodup hclients hwf hpending hrun⟩

/-- The job of three ranks can run its barrier, and every run of it leaves rank 1's `a`, rank
2's `c` and `d`, and rank 0's `a` in every rank's store. -/
theorem barrier_run_stores_three :
    let sts : Int32 → pmi_state_t := fun r => ⟨three_pending r, three_kvs⟩
    (0 : Int32) < 3 ∧ kvs_wf 3 three_kvs ∧
      (sts 0).g_kvs.entries.length + ((0 :: ([2, 1] : List Int32)).map fun r =>
        (sts r).g_pending_kvs.entries.length).sum ≤ UINT32_MAX ∧
      barrier_kvs 3 three_kvs three_pending (1, [97]) = some [49] ∧
      barrier_kvs 3 three_kvs three_pending (2, [99]) = some [51] ∧
      barrier_kvs 3 three_kvs three_pending (2, [100]) = some [52] ∧
      (∃ sts', barrier_run 3 [2, 1] sts sts') ∧
        ∀ sts', barrier_run 3 [2, 1] sts sts' →
          ∀ r, 0 ≤ r → r < 3 → (sts' r).g_pending_kvs = ∅ ∧
            ∀ a, (sts' r).g_kvs.lookup a =
              barrier_kvs 3 (sts 0).g_kvs (fun r => (sts r).g_pending_kvs) a :=
  ⟨by decide, three_wf.1, by decide +kernel, by decide +kernel, by decide +kernel, by decide +kernel,
    @barrier_run_stores 3 (by decide) [2, 1] (by decide) mem_clients_three
      (fun r => ⟨three_pending r, three_kvs⟩) three_wf.1 (fun r => three_wf.2 r) (by decide +kernel)⟩

/-! ### The handshake's guarantees -/

section Ranks

variable {g_size : Int32}

theorem toNatClampNeg_mem_range' {r : Int32} (hr : 0 < r ∧ r < g_size) :
    r.toNatClampNeg ∈ List.range' 1 (g_size.toNatClampNeg - 1) := by
  rw [List.mem_range'_1]
  rw [Int32.lt_iff_toInt_lt, Int32.lt_iff_toInt_lt] at hr
  unfold Int32.toNatClampNeg
  simp at hr
  omega

theorem length_le_of_ranks {ranks : List Int32} (hnodup : ranks.Nodup)
    (hrange : ∀ r ∈ ranks, 0 < r ∧ r < g_size) : ranks.length ≤ g_size.toNatClampNeg - 1 := by
  have hnodup' : (ranks.map Int32.toNatClampNeg).Nodup :=
    hnodup.map_on fun x hx y hy hxy => toNatClampNeg_inj (Int32.le_of_lt (hrange x hx).1)
      (Int32.le_of_lt (hrange y hy).1) hxy
  have hsub : ranks.map Int32.toNatClampNeg ⊆ List.range' 1 (g_size.toNatClampNeg - 1) := by
    intro j hj
    obtain ⟨r, hr, rfl⟩ := List.mem_map.mp hj
    exact toNatClampNeg_mem_range' (hrange r hr)
  simpa using hnodup'.length_le_of_subset hsub

theorem mem_of_length_ranks {ranks : List Int32} (hnodup : ranks.Nodup)
    (hrange : ∀ r ∈ ranks, 0 < r ∧ r < g_size) (hlen : g_size.toNatClampNeg - 1 ≤ ranks.length)
    {r : Int32} (hr : 0 < r ∧ r < g_size) : r ∈ ranks := by
  by_contra hnot
  have hmore := length_le_of_ranks (List.nodup_cons.mpr ⟨hnot, hnodup⟩) fun r' hr' => by
    rcases List.mem_cons.mp hr' with rfl | hr'
    · exact hr
    · exact hrange r' hr'
  rw [List.length_cons] at hmore
  omega

theorem length_of_ranks {ranks : List Int32} (hnodup : ranks.Nodup)
    (hmem : ∀ r, r ∈ ranks ↔ 0 < r ∧ r < g_size) : ranks.length = g_size.toNatClampNeg - 1 := by
  refine le_antisymm (length_le_of_ranks hnodup fun r hr => (hmem r).mp hr) ?_
  have hsub : List.range' 1 (g_size.toNatClampNeg - 1) ⊆ ranks.map Int32.toNatClampNeg := by
    intro j hj
    rw [List.mem_range'_1] at hj
    have hjn : j < g_size.toNatClampNeg := by omega
    obtain ⟨hr, hjr⟩ := ofNat_rank (by omega) hjn
    exact List.mem_map.mpr ⟨_, (hmem _).mpr hr, hjr⟩
  simpa using (List.nodup_range' 1 (by omega)).length_le_of_subset hsub

end Ranks

section Accept

variable {g_size : Int32} {timeout : String} {seen_rank : List Bool}
  {g_clients : List (Int32 × Pieces)}

/-- `accept_rank_clients`'s loop: `seen_rank` flags rank 0 and the clients' ranks, which are
distinct nonzero ranks of the job. -/
structure AcceptInv (g_size : Int32) (seen_rank : List Bool) (g_clients : List (Int32 × Pieces)) :
    Prop where
  seen : ∀ j, seen_rank.getD j false = true ↔ j = 0 ∨ ∃ c ∈ g_clients, c.1.toNatClampNeg = j
  seen_length : seen_rank.length = g_size.toNatClampNeg
  nodup : (g_clients.map Prod.fst).Nodup
  range : ∀ c ∈ g_clients, 0 < c.1 ∧ c.1 < g_size

theorem accept_inv_start (hg : 0 < g_size) :
    AcceptInv g_size ((List.replicate g_size.toNatClampNeg false).set 0 true) [] := by
  have hlen : 0 < g_size.toNatClampNeg := toNatClampNeg_lt (Int32.le_refl 0) hg
  refine ⟨fun j => ?_, by simp, List.nodup_nil, fun c hc => by cases hc⟩
  rcases Nat.eq_zero_or_pos j with rfl | hj
  · have h0 : 0 < (List.replicate g_size.toNatClampNeg false).length := by simpa using hlen
    rw [getD_set_self h0]
    simp
  · rw [getD_set_of_ne _ (by omega), List.getD_eq_getElem?_getD, List.getElem?_replicate]
    split_ifs <;> simp <;> omega

theorem AcceptInv.add (h : AcceptInv g_size seen_rank g_clients) {r : Int32}
    (hr : 0 < r ∧ r < g_size) (hnew : seen_rank.getD r.toNatClampNeg false = false) (rest : Pieces) :
    AcceptInv g_size (seen_rank.set r.toNatClampNeg true) (g_clients ++ [(r, rest)]) := by
  have hidx : r.toNatClampNeg < seen_rank.length := by
    rw [h.seen_length]
    exact toNatClampNeg_lt (Int32.le_of_lt hr.1) hr.2
  refine ⟨fun j => ?_, by rw [List.length_set, h.seen_length], ?_, ?_⟩
  · by_cases hj : r.toNatClampNeg = j
    · subst hj
      rw [getD_set_self hidx]
      simp
    · rw [getD_set_of_ne _ hj, h.seen j]
      simp [hj]
  · rw [List.map_append, List.nodup_append]
    refine ⟨h.nodup, List.nodup_singleton r, ?_⟩
    intro a ha b hb hab
    rw [List.mem_singleton.mp hb] at hab
    subst hab
    obtain ⟨c, hc, rfl⟩ := List.mem_map.mp ha
    have hseen := (h.seen c.1.toNatClampNeg).mpr (.inr ⟨c, hc, rfl⟩)
    rw [hseen] at hnew
    cases hnew
  · intro c hc
    rcases List.mem_append.mp hc with hc | hc
    · exact h.range c hc
    · rw [List.mem_singleton.mp hc]
      exact hr

/-- What `accept_rank_clients`'s loop returns is a set of distinct nonzero ranks, at least
`g_size - 1` of them. -/
theorem AcceptInv.of_accept_loop (h : AcceptInv g_size seen_rank g_clients) {conns : List Pieces}
    {result : List (Int32 × Pieces)}
    (hok : accept_loop g_size timeout conns seen_rank g_clients = .ok result) :
    ∃ seen', AcceptInv g_size seen' result ∧ g_size.toInt - 1 ≤ result.length := by
  induction conns generalizing seen_rank g_clients with
  | nil =>
    rw [accept_loop] at hok
    split_ifs at hok with hcond
    cases hok
    exact ⟨seen_rank, h, hcond⟩
  | cons conn conns ih =>
    rw [accept_loop] at hok
    split_ifs at hok with hcond
    · cases hok
      exact ⟨seen_rank, h, hcond⟩
    · rcases hrecv : recv_msg conn with ⟨_ | hello, rest⟩
      · rw [hrecv] at hok
        cases hok
      · rw [hrecv] at hok
        simp only at hok
        split_ifs at hok with hinvalid hseen
        have hr : 0 < hello.rank ∧ hello.rank < g_size := by
          simp only [not_or, not_not, Int32.not_le] at hinvalid
          exact ⟨hinvalid.2.1, hinvalid.2.2⟩
        exact ih (h.add hr (by simpa using hseen) rest) hok

/-- One proper hello per rank, on connections taken in any order: every client is accepted with
its rank and what follows its hello. -/
theorem AcceptInv.accept_hellos (hg : 0 < g_size) (h : AcceptInv g_size seen_rank g_clients)
    (hellos : List (Int32 × UInt32 × Pieces × List UInt8))
    (hnodup : (g_clients.map Prod.fst ++ hellos.map Prod.fst).Nodup)
    (hrange : ∀ hl ∈ hellos, 0 < hl.1 ∧ hl.1 < g_size)
    (hlen : g_clients.length + hellos.length = g_size.toNatClampNeg - 1)
    (hconns : ∀ hl ∈ hellos, (∀ piece ∈ hl.2.2.1, piece ≠ []) ∧
      hl.2.2.1.flatten = wire_bytes (hello_msg hl.1 hl.2.1) ++ hl.2.2.2) :
    ∃ result, accept_loop g_size timeout (hellos.map fun hl => hl.2.2.1) seen_rank g_clients =
        .ok result ∧
      result.map Prod.fst = g_clients.map Prod.fst ++ hellos.map Prod.fst ∧
      result.map (fun c => c.2.flatten) =
        g_clients.map (fun c => c.2.flatten) ++ hellos.map fun hl => hl.2.2.2 := by
  have hsize : (g_size.toNatClampNeg : Int) = g_size.toInt := by
    rw [Int32.lt_iff_toInt_lt] at hg
    unfold Int32.toNatClampNeg
    simp at hg
    omega
  induction hellos generalizing seen_rank g_clients with
  | nil =>
    refine ⟨g_clients, ?_, by simp, by simp⟩
    rw [List.map_nil, accept_loop, if_pos (by simp at hlen; omega)]
  | cons hl hellos ih =>
    obtain ⟨r, junk, pieces, rest⟩ := hl
    obtain ⟨hne, hstream⟩ := hconns _ List.mem_cons_self
    obtain ⟨pieces', hrecv, hflat, -⟩ :=
      recv_msg_wire_bytes (by simp [hello_msg, k_max_wire_string])
        (by simp [hello_msg, k_max_wire_string]) hne hstream
    have hr : 0 < r ∧ r < g_size := hrange _ List.mem_cons_self
    have hnotin : r ∉ g_clients.map Prod.fst := by
      intro hmem
      rw [List.map_cons] at hnodup
      exact (List.nodup_append.mp hnodup).2.2 r hmem r List.mem_cons_self rfl
    have hnew : seen_rank.getD r.toNatClampNeg false = false := by
      cases hseen : seen_rank.getD r.toNatClampNeg false
      · rfl
      · rcases (h.seen _).mp hseen with h0 | ⟨c, hc, hcr⟩
        · exact absurd h0 (toNatClampNeg_ne_zero hr.1)
        · have hcr' := toNatClampNeg_inj (Int32.le_of_lt (h.range c hc).1) (Int32.le_of_lt hr.1) hcr
          exact absurd (List.mem_map.mpr ⟨c, hc, hcr'⟩) hnotin
    obtain ⟨result, hloop, hranks, hrests⟩ := ih (h.add hr hnew pieces')
      (by simpa using hnodup) (fun hl' hl'' => hrange hl' (List.mem_cons_of_mem _ hl''))
      (by simp at hlen ⊢; omega) (fun hl' hl'' => hconns hl' (List.mem_cons_of_mem _ hl''))
    refine ⟨result, ?_, by simpa using hranks, by simpa [hflat] using hrests⟩
    have hcond : ¬(g_size.toInt - 1 ≤ (g_clients.length : Int)) := by
      simp at hlen
      omega
    have hvalid : ¬((hello_msg r junk).type ≠ MSG_HELLO ∨ (hello_msg r junk).rank ≤ 0 ∨
        g_size ≤ (hello_msg r junk).rank) := by
      simp only [hello_msg, not_or, not_not, Int32.not_le]
      exact ⟨trivial, hr⟩
    have hunseen : ¬(seen_rank.getD (hello_msg r junk).rank.toNatClampNeg false = true) := by
      rw [show (hello_msg r junk).rank = r from rfl, hnew]
      exact Bool.false_ne_true
    rw [List.map_cons, accept_loop, if_neg hcond, hrecv]
    dsimp only
    rw [if_neg hvalid, if_neg hunseen]
    exact hloop

end Accept

theorem accept_rank_clients_ranks {g_size : Int32} (hg : 0 < g_size) (timeout : String) :
    (∀ (conns : List Pieces) (g_clients : List (Int32 × Pieces)),
      accept_rank_clients g_size timeout conns = .ok g_clients →
      (g_clients.map Prod.fst).Nodup ∧ ∀ r, r ∈ g_clients.map Prod.fst ↔ 0 < r ∧ r < g_size) ∧
    ∀ hellos : List (Int32 × UInt32 × Pieces × List UInt8), (hellos.map Prod.fst).Nodup →
      (∀ r, r ∈ hellos.map Prod.fst ↔ 0 < r ∧ r < g_size) →
      (∀ hl ∈ hellos, (∀ piece ∈ hl.2.2.1, piece ≠ []) ∧
        hl.2.2.1.flatten = wire_bytes (hello_msg hl.1 hl.2.1) ++ hl.2.2.2) →
      ∃ g_clients, accept_rank_clients g_size timeout (hellos.map fun hl => hl.2.2.1) = .ok g_clients ∧
        g_clients.map Prod.fst = hellos.map Prod.fst ∧
        g_clients.map (fun c => c.2.flatten) = hellos.map fun hl => hl.2.2.2 := by
  refine ⟨fun conns g_clients hok => ?_, fun hellos hnodup hmem hconns => ?_⟩
  · -- soundness: distinct ranks of the job, as many as there are nonzero ranks
    obtain ⟨seen, h, hlen⟩ := (accept_inv_start hg).of_accept_loop hok
    have hrange : ∀ r ∈ g_clients.map Prod.fst, 0 < r ∧ r < g_size := by
      intro r hr
      obtain ⟨c, hc, rfl⟩ := List.mem_map.mp hr
      exact h.range c hc
    have hlen' : g_size.toNatClampNeg - 1 ≤ (g_clients.map Prod.fst).length := by
      rw [List.length_map]
      unfold Int32.toNatClampNeg
      omega
    exact ⟨h.nodup, fun r => ⟨fun hr => hrange r hr,
      fun hr => mem_of_length_ranks h.nodup hrange hlen' hr⟩⟩
  · -- completeness: every proper hello is accepted
    have hlen := length_of_ranks hnodup hmem
    rw [List.length_map] at hlen
    obtain ⟨result, hloop, hranks, hrests⟩ := (accept_inv_start hg).accept_hellos hg hellos
      (by simpa using hnodup) (fun hl h' => (hmem hl.1).mp (List.mem_map_of_mem h'))
      (by simpa using hlen) hconns
    exact ⟨result, hloop, by simpa using hranks, by simpa using hrests⟩

/-- A hello in two pieces, the second followed by `rest`, what the client sends next. -/
def hello_pieces (g_rank : Int32) (junk : UInt32) (rest : List UInt8) : Pieces :=
  [(wire_bytes (hello_msg g_rank junk)).take 6, (wire_bytes (hello_msg g_rank junk)).drop 6 ++ rest]

/-- Ranks 3, 1 and 2 of four connect in that order, each hello in two pieces. -/
def four_hellos : List (Int32 × UInt32 × Pieces × List UInt8) :=
  [(3, 7, hello_pieces 3 7 [9], [9]), (1, 0, hello_pieces 1 0 [8, 8], [8, 8]),
    (2, 5, hello_pieces 2 5 [], [])]

theorem mem_clients_four (r : Int32) : r ∈ ([3, 1, 2] : List Int32) ↔ 0 < r ∧ r < 4 := by
  rw [List.mem_cons, List.mem_pair, Int32.lt_iff_toInt_lt, Int32.lt_iff_toInt_lt,
    ← Int32.toInt_inj, ← Int32.toInt_inj, ← Int32.toInt_inj]
  simp
  omega

theorem accept_rank_clients_ranks_four :
    (0 : Int32) < 4 ∧ (four_hellos.map Prod.fst).Nodup ∧
      (∀ r, r ∈ four_hellos.map Prod.fst ↔ 0 < r ∧ r < 4) ∧
      (∀ hl ∈ four_hellos, (∀ piece ∈ hl.2.2.1, piece ≠ []) ∧
        hl.2.2.1.flatten = wire_bytes (hello_msg hl.1 hl.2.1) ++ hl.2.2.2) ∧
      (∀ (conns : List Pieces) (g_clients : List (Int32 × Pieces)),
        accept_rank_clients 4 "" conns = .ok g_clients →
        (g_clients.map Prod.fst).Nodup ∧ ∀ r, r ∈ g_clients.map Prod.fst ↔ 0 < r ∧ r < 4) ∧
      ∃ g_clients, accept_rank_clients 4 "" (four_hellos.map fun hl => hl.2.2.1) = .ok g_clients ∧
        g_clients.map Prod.fst = [3, 1, 2] ∧ g_clients.map (fun c => c.2.flatten) = [[9], [8, 8], []] :=
  have hnodup : (four_hellos.map Prod.fst).Nodup := by decide
  have hmem : ∀ r, r ∈ four_hellos.map Prod.fst ↔ 0 < r ∧ r < 4 := mem_clients_four
  have hconns : ∀ hl ∈ four_hellos, (∀ piece ∈ hl.2.2.1, piece ≠ []) ∧
      hl.2.2.1.flatten = wire_bytes (hello_msg hl.1 hl.2.1) ++ hl.2.2.2 := by decide +kernel
  have h := accept_rank_clients_ranks (by decide : (0 : Int32) < 4) ""
  ⟨by decide, hnodup, hmem, hconns, h.1, h.2 four_hellos hnodup hmem hconns⟩

end Lci.PmiWire
