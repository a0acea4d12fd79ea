import Lci.ImmData
import Lci.Machine

/-! The rendezvous transfer (`rdv_zcopy`) after the RTS/RTR exchange. The receiver's
`handle_rdv_rts_common` answers the RTS with an RTR that names its context (send/recv mode) or
the key under which it filed the context in `rdv_imm_archive` (writeimm mode). The sender's
`handle_rdv_rtr` sets the counter of its extended context to `⌈size / m⌉` and posts one RDMA
write per chunk of at most `m` bytes, the last one with immediate data in writeimm mode. Three
kinds of event then happen in any order: the sender's `progress_write` handles the local
completion of a write (the one that brings the counter to zero posts the FIN in send/recv mode
and signals the sender's completion), a write lands at the receiver (for a putImm,
`progress_remote_write` decodes the word, takes the context out of the archive and signals the
receiver's completion), and the receiver handles the FIN (`handle_rdv_fin`).

For a non-empty message the writes tile the buffer and their number is the counter
(`post_writes_tile`, `handle_rdv_rtr_count`); over every interleaving neither completion is
signaled twice, every step brings the transfer closer to its end, and a state where nothing can
happen has signaled both exactly once (`transfer_completes_once`). An empty message, which a GPU
build sends by rendezvous from a device buffer, posts no write and leaves the counter at zero:
nothing can ever happen and neither completion is signaled (`empty_transfer_never_completes`). -/

namespace Lci.Rendezvous

open Bits ImmData

/-- What a transfer depends on: the network's `max_msg_size`, the runtime's `rdv_protocol`, the
archive's `tag_bits` (1 to 16, as `imm_tag_archive_t` asserts) and the RTR's `recv_ctx_or_key`:
a slot of the archive in writeimm mode, the address of the receiver's context otherwise. -/
structure Config where
  max_single_msg_size : Nat
  max_single_msg_size_pos : 0 < max_single_msg_size
  use_writeimm : Bool
  tag_bits : Nat
  tag_bits_le : tag_bits ≤ 16
  recv_ctx_or_key : Nat
  recv_ctx_or_key_valid :
    if use_writeimm then recv_ctx_or_key < 2 ^ tag_bits else recv_ctx_or_key ≠ 0

/-- The immediate word of the last write in writeimm mode: a FIN with the receiver's key. -/
def writeimm_data (c : Config) : BitVec 32 :=
  set_bits32 (set_bits32 0 IMM_DATA_MSG_FIN 2 29) (BitVec.ofNat 32 c.recv_ctx_or_key) c.tag_bits 0

/-- `ectx->recv_ctx`: set in send/recv mode only. -/
def recv_ctx (c : Config) : Nat := if c.use_writeimm then 0 else c.recv_ctx_or_key

/-- A write posted by `handle_rdv_rtr`: where it starts in the buffer, its length, and the
immediate word of a `post_putImm` (`none` for a `post_put`). -/
structure WriteOp where
  offset : Nat
  length : Nat
  imm : Option (BitVec 32)
  deriving DecidableEq, Repr

/-- The posting loop of `handle_rdv_rtr`, from `offset`. -/
def post_writes (c : Config) (size offset : Nat) : List WriteOp :=
  if _ : offset < size then
    let length := min (size - offset) c.max_single_msg_size
    let is_last_chunk := decide (offset + length ≥ size)
    let imm := if c.use_writeimm && is_last_chunk then some (writeimm_data c) else none
    ⟨offset, length, imm⟩ :: post_writes c size (offset + c.max_single_msg_size)
  else []
termination_by size - offset
decreasing_by have := c.max_single_msg_size_pos; omega

/-- `handle_rdv_rtr`: the counter of the extended context and the writes posted. -/
def handle_rdv_rtr (c : Config) (size : Nat) : Int × List WriteOp :=
  (((size + c.max_single_msg_size - 1) / c.max_single_msg_size : Nat), post_writes c size 0)

/-- A transfer in progress: the sender's counter, the writes whose local completion
`progress_write` has not handled, the writes that have not landed at the receiver, the FIN
messages in flight, whether the receiver's context is in the archive, and how often each side's
completion object was signaled. -/
structure State where
  signal_count : Int
  writing : List WriteOp
  landing : List WriteOp
  fins : Nat
  archived : Bool
  sender_signals : Nat
  receiver_signals : Nat
  deriving DecidableEq, Repr

/-- The transfer once the RTR is handled: every posted write still to complete and to land, and
in writeimm mode the receiver's context in the archive. -/
def start (c : Config) (size : Nat) : State :=
  let rtr := handle_rdv_rtr c size
  ⟨rtr.1, rtr.2, rtr.2, 0, c.use_writeimm, 0, 0⟩

/-- `progress_write` for a completion of the transfer's extended context. -/
def progress_write (c : Config) (s : State) : State :=
  let signal_count := s.signal_count - 1
  if signal_count > 0 then { s with signal_count := signal_count }
  else
    -- `handle_rdv_local_write` sends the FIN when `recv_ctx` is set, then the sender is signaled
    let fins := if recv_ctx c ≠ 0 then s.fins + 1 else s.fins
    { s with signal_count := signal_count, fins := fins, sender_signals := s.sender_signals + 1 }

/-- The receiver's `progress_remote_write` for a word of this transfer: a FIN under the
transfer's key takes the context out of the archive and signals the receiver
(`handle_rdv_remote_comp`). Any other word fails one of its assertions or belongs to another
transfer. -/
def remote_write (c : Config) (s : State) (imm : BitVec 32) : Option State :=
  match progress_remote_write c.tag_bits imm with
  | .fin archive_tag =>
      if c.use_writeimm ∧ archive_tag = c.recv_ctx_or_key ∧ s.archived then
        some { s with archived := false, receiver_signals := s.receiver_signals + 1 }
      else none
  | _ => none

inductive Event
  | write_completed (op : WriteOp)
  | write_landed (op : WriteOp)
  | fin_received
  deriving DecidableEq, Repr

/-- One event of the transfer; `none` when it cannot happen. -/
def step (c : Config) (s : State) : Event → Option State
  | .write_completed op =>
      if op ∈ s.writing then some (progress_write c { s with writing := s.writing.erase op })
      else none
  | .write_landed op =>
      if op ∈ s.landing then
        let s' := { s with landing := s.landing.erase op }
        match op.imm with
        | none => some s'
        | some imm => remote_write c s' imm
      else none
  | .fin_received =>
      -- `handle_rdv_fin`
      if 0 < s.fins then
        some { s with fins := s.fins - 1, receiver_signals := s.receiver_signals + 1 }
      else none

def Reachable (c : Config) (size : Nat) : State → Prop :=
  Machine.Reachable (· = start c size) (fun s s' => ∃ e, step c s e = some s')

/-- No event can happen. -/
def Terminal (c : Config) (s : State) : Prop := ∀ e, step c s e = none

/-! ### The writes of `handle_rdv_rtr` -/

/-- `ops` cover `[start, stop)` in order, each with a positive length of at most `m`. -/
def Tiles (m : Nat) : Nat → Nat → List WriteOp → Prop
  | start, stop, [] => start = stop
  | start, stop, op :: ops =>
      op.offset = start ∧ 0 < op.length ∧ op.length ≤ m ∧ Tiles m (start + op.length) stop ops

theorem post_writes_of_le (c : Config) {size offset : Nat} (h : size ≤ offset) :
    post_writes c size offset = [] := by
  rw [post_writes, dif_neg (by omega)]

/-- The loop's writes cover the rest of the buffer in order, in chunks of at most `m` bytes. -/
theorem post_writes_tile (c : Config) {size offset : Nat} (h : offset ≤ size) :
    Tiles c.max_single_msg_size offset size (post_writes c size offset) := by
  fun_induction post_writes c size offset with
  | case1 offset hlt length is_last_chunk imm ih =>
    refine ⟨rfl, ?_, Nat.min_le_right _ _, ?_⟩
    · show 0 < min (size - offset) c.max_single_msg_size
      have := c.max_single_msg_size_pos
      omega
    · by_cases hfull : offset + c.max_single_msg_size ≤ size
      · have hl : length = c.max_single_msg_size := by omega
        rw [hl]
        exact ih hfull
      · have hl : offset + length = size := by omega
        rw [hl, post_writes_of_le c (by omega)]
        rfl
  | case2 offset hge =>
    show offset = size
    omega

theorem ceil_div_step {x m : Nat} (hm : 0 < m) (hx : 0 < x) :
    (x + m - 1) / m = (x - m + m - 1) / m + 1 := by
  rcases Nat.lt_or_ge x m with h | h
  · rw [show x - m + m - 1 = m - 1 by omega, Nat.div_eq_of_lt (by omega : m - 1 < m)]
    exact Nat.div_eq_of_lt_le (by omega) (by omega)
  · rw [show x + m - 1 = (x - m + m - 1) + m by omega, Nat.add_div_right _ hm]

theorem post_writes_length (c : Config) (size offset : Nat) :
    (post_writes c size offset).length =
      (size - offset + c.max_single_msg_size - 1) / c.max_single_msg_size := by
  have hm := c.max_single_msg_size_pos
  fun_induction post_writes c size offset with
  | case1 offset hlt length is_last_chunk imm ih =>
    rw [List.length_cons, ih, ceil_div_step hm (by omega : 0 < size - offset),
      show size - (offset + c.max_single_msg_size) = size - offset - c.max_single_msg_size by omega]
  | case2 offset hge =>
    rw [List.length_nil, show size - offset = 0 by omega, Nat.zero_add, Nat.div_eq_of_lt (by omega)]

theorem handle_rdv_rtr_count (c : Config) (size : Nat) :
    (handle_rdv_rtr c size).1 = (handle_rdv_rtr c size).2.length := by
  simp [handle_rdv_rtr, post_writes_length]

/-- Every write but the last is a plain put; the last one ends the buffer and is, in writeimm
mode, the putImm of the FIN word. -/
theorem post_writes_last (c : Config) {size offset : Nat} (h : offset < size) :
    ∃ front last, post_writes c size offset = front ++ [last] ∧ (∀ op ∈ front, op.imm = none) ∧
      last.offset + last.length = size ∧
      last.imm = if c.use_writeimm then some (writeimm_data c) else none := by
  fun_induction post_writes c size offset with
  | case1 offset hlt length is_last_chunk imm ih =>
    by_cases hmore : offset + c.max_single_msg_size < size
    · obtain ⟨front, last, heq, hfront, hend, himm⟩ := ih hmore
      refine ⟨⟨offset, length, imm⟩ :: front, last, by rw [heq, List.cons_append], ?_, hend, himm⟩
      intro op hop
      rcases List.mem_cons.mp hop with rfl | hop
      · have hnot : is_last_chunk = false := by
          simp only [is_last_chunk, length, decide_eq_false_iff_not]
          omega
        simp [imm, hnot]
      · exact hfront op hop
    · refine ⟨[], ⟨offset, length, imm⟩, ?_, by simp, ?_, ?_⟩
      · rw [post_writes_of_le c (by omega)]
        rfl
      · show offset + min (size - offset) c.max_single_msg_size = size
        omega
      · have hlast : is_last_chunk = true := by
          simp only [is_last_chunk, length, decide_eq_true_eq]
          omega
        cases hw : c.use_writeimm <;> simp [imm, hlast, hw]
  | case2 offset hge => exact absurd h hge

/-- **What `handle_rdv_rtr` posts for a non-empty message**: writes that tile the buffer in
chunks of at most `m` bytes, as many as the counter says and at least one, all plain puts but the
last, which in writeimm mode is the putImm of the FIN word. -/
theorem handle_rdv_rtr_writes (c : Config) {size : Nat} (hsize : 0 < size) :
    Tiles c.max_single_msg_size 0 size (handle_rdv_rtr c size).2 ∧
      (handle_rdv_rtr c size).1 = (handle_rdv_rtr c size).2.length ∧
      1 ≤ (handle_rdv_rtr c size).2.length ∧
      ∃ front last, (handle_rdv_rtr c size).2 = front ++ [last] ∧ (∀ op ∈ front, op.imm = none) ∧
        last.imm = if c.use_writeimm then some (writeimm_data c) else none := by
  obtain ⟨front, last, heq, hfront, -, himm⟩ := post_writes_last c hsize
  refine ⟨post_writes_tile c (Nat.zero_le size), handle_rdv_rtr_count c size, ?_,
    front, last, heq, hfront, himm⟩
  simp [handle_rdv_rtr, heq]

/-- The receiver reads the FIN word of the last write as a FIN under its own key. -/
theorem progress_remote_write_writeimm_data (c : Config) (hw : c.use_writeimm = true) :
    progress_remote_write c.tag_bits (writeimm_data c) = .fin c.recv_ctx_or_key := by
  have hkey := c.recv_ctx_or_key_valid
  rw [if_pos hw] at hkey
  exact progress_remote_write_fin c.tag_bits_le hkey

theorem recv_ctx_ne_zero_iff (c : Config) : recv_ctx c ≠ 0 ↔ c.use_writeimm = false := by
  have hvalid := c.recv_ctx_or_key_valid
  cases hw : c.use_writeimm
  · rw [if_neg (by simp [hw])] at hvalid
    simp [recv_ctx, hw, hvalid]
  · simp [recv_ctx, hw]

/-! ### The transfer over every interleaving -/

/-- What holds of a non-empty transfer at every point: the counter is the number of completions
still to handle; the sender has been signaled once when they are all handled and not before; the
receiver's one signal is either given or still to come, from a putImm to land, a FIN in flight,
or in send/recv mode the FIN the sender has yet to send; a putImm carries the FIN word; the
receiver's context is in the archive until the receiver is signaled. -/
structure Inv (c : Config) (s : State) : Prop where
  count : s.signal_count = s.writing.length
  sender : s.sender_signals = if s.writing = [] then 1 else 0
  receiver : s.receiver_signals + s.fins + s.landing.countP (·.imm.isSome) +
    (if c.use_writeimm = false ∧ s.writing ≠ [] then 1 else 0) = 1
  imm : ∀ op ∈ s.landing, op.imm = none ∨ (c.use_writeimm = true ∧ op.imm = some (writeimm_data c))
  archived : s.archived = (c.use_writeimm && s.receiver_signals == 0)
  fins : 0 < s.fins → c.use_writeimm = false

theorem start_inv (c : Config) {size : Nat} (hsize : 0 < size) : Inv c (start c size) := by
  obtain ⟨-, hcount, hpos, front, last, heq, hfront, himm⟩ := handle_rdv_rtr_writes c hsize
  have hne : (handle_rdv_rtr c size).2 ≠ [] := List.ne_nil_of_length_pos hpos
  refine ⟨hcount, by simp [start, hne], ?_, ?_, by simp [start], by simp [start]⟩
  · cases hw : c.use_writeimm <;> simpa [start, heq, himm, hw] using hfront
  · intro op hop
    simp only [start, heq, List.mem_append, List.mem_singleton] at hop
    rcases hop with hop | rfl
    · exact .inl (hfront op hop)
    · cases hw : c.use_writeimm <;> simp [himm, hw]

section Run

variable {c : Config} {s s' : State}

theorem remote_write_fin (hw : c.use_writeimm = true) (ha : s.archived = true) :
    remote_write c s (writeimm_data c) =
      some { s with archived := false, receiver_signals := s.receiver_signals + 1 } := by
  simp [remote_write, progress_remote_write_writeimm_data c hw, hw, ha]

theorem step_cases {e : Event} (h : step c s e = some s') :
    (∃ op ∈ s.writing, s' = progress_write c { s with writing := s.writing.erase op }) ∨
    (∃ op ∈ s.landing, op.imm = none ∧ s' = { s with landing := s.landing.erase op }) ∨
    (∃ op ∈ s.landing, ∃ imm, op.imm = some imm ∧
      remote_write c { s with landing := s.landing.erase op } imm = some s') ∨
    (0 < s.fins ∧ s' = { s with fins := s.fins - 1, receiver_signals := s.receiver_signals + 1 }) := by
  cases e with
  | write_completed op =>
    simp only [step] at h
    split_ifs at h with hop
    exact .inl ⟨op, hop, (Option.some.inj h).symm⟩
  | write_landed op =>
    simp only [step] at h
    split_ifs at h with hop
    split at h
    · rename_i himm
      exact .inr (.inl ⟨op, hop, himm, (Option.some.inj h).symm⟩)
    · rename_i imm himm
      exact .inr (.inr (.inl ⟨op, hop, imm, himm, h⟩))
  | fin_received =>
    simp only [step] at h
    split_ifs at h with hf
    exact .inr (.inr (.inr ⟨hf, (Option.some.inj h).symm⟩))

/-- A putImm still to land carries the FIN word, and the receiver waits for it with its context
in the archive and no FIN in flight. -/
theorem Inv.putImm_landing (hi : Inv c s) {op : WriteOp} (hop : op ∈ s.landing)
    {imm : BitVec 32} (himm : op.imm = some imm) :
    c.use_writeimm = true ∧ imm = writeimm_data c ∧ s.archived = true ∧
      s.receiver_signals = 0 ∧ s.fins = 0 := by
  obtain ⟨hw, hdata⟩ : c.use_writeimm = true ∧ imm = writeimm_data c := by
    rcases hi.imm op hop with hnone | ⟨hw, hsome⟩
    · simp [himm] at hnone
    · exact ⟨hw, Option.some.inj (himm.symm.trans hsome)⟩
  have hk : 0 < s.landing.countP (·.imm.isSome) := List.countP_pos_iff.mpr ⟨op, hop, by simp [himm]⟩
  have hrecv := hi.receiver
  simp only [hw, Bool.true_eq_false, false_and, if_false] at hrecv
  have hrs : s.receiver_signals = 0 := by omega
  exact ⟨hw, hdata, by simp [hi.archived, hw, hrs], hrs, by omega⟩

/-- The number of putImms still to land, after one of them has been taken out. -/
theorem countP_landing_erase {l : List WriteOp} {op : WriteOp} (hop : op ∈ l) :
    l.countP (·.imm.isSome) = (l.erase op).countP (·.imm.isSome) + if op.imm.isSome then 1 else 0 := by
  rw [(List.perm_cons_erase hop).countP_eq, List.countP_cons]

theorem progress_write_inv (hi : Inv c s) {op : WriteOp} (hop : op ∈ s.writing) :
    Inv c (progress_write c { s with writing := s.writing.erase op }) := by
  have hlen := List.length_erase_of_mem hop
  have hpos := List.length_pos_of_mem hop
  have hne := List.ne_nil_of_mem hop
  have hcount := hi.count
  have hsender := hi.sender
  have hrecv := hi.receiver
  rw [if_neg hne] at hsender
  unfold progress_write
  dsimp only
  split_ifs with hmore hctx
  · -- the counter stays positive: only the counter moves
    have hne' : s.writing.erase op ≠ [] := List.ne_nil_of_length_pos (by omega)
    refine ⟨by simp only [hcount, hlen]; omega, by simp [hne', hsender], ?_, hi.imm, hi.archived,
      hi.fins⟩
    simpa [hne, hne'] using hrecv
  · -- the last completion, in send/recv mode: the FIN goes out
    have hw := (recv_ctx_ne_zero_iff c).mp hctx
    have hnil : s.writing.erase op = [] := List.eq_nil_of_length_eq_zero (by omega)
    refine ⟨by simp only [hnil, hcount, List.length_nil]; omega, by simp [hnil, hsender], ?_, hi.imm, ?_,
      fun _ => hw⟩
    · simp only [hw, hne, hnil, ne_eq, not_true_eq_false, not_false_eq_true, and_true, and_false,
        if_true, if_false] at hrecv ⊢
      omega
    · exact hi.archived
  · -- the last completion, in writeimm mode: nothing is sent
    have hw : c.use_writeimm = true := by
      simpa using mt (recv_ctx_ne_zero_iff c).mpr hctx
    have hnil : s.writing.erase op = [] := List.eq_nil_of_length_eq_zero (by omega)
    refine ⟨by simp only [hnil, hcount, List.length_nil]; omega, by simp [hnil, hsender], ?_, hi.imm, hi.archived,
      hi.fins⟩
    simpa [hw] using hrecv

theorem land_put_inv (hi : Inv c s) {op : WriteOp} (hop : op ∈ s.landing) (himm : op.imm = none) :
    Inv c { s with landing := s.landing.erase op } := by
  have hk := countP_landing_erase hop
  have hrecv := hi.receiver
  refine ⟨hi.count, hi.sender, ?_, fun o ho => hi.imm o (List.mem_of_mem_erase ho), hi.archived,
    hi.fins⟩
  simp only [himm, Option.isSome_none, Bool.false_eq_true, if_false, Nat.add_zero] at hk
  dsimp only
  omega

theorem land_putImm_inv (hi : Inv c s) {op : WriteOp} (hop : op ∈ s.landing) {imm : BitVec 32}
    (himm : op.imm = some imm)
    (h : remote_write c { s with landing := s.landing.erase op } imm = some s') : Inv c s' := by
  obtain ⟨hw, rfl, ha, hrs, hfins⟩ := hi.putImm_landing hop himm
  rw [@remote_write_fin c { s with landing := s.landing.erase op } hw ha] at h
  cases h
  have hk := countP_landing_erase hop
  have hrecv := hi.receiver
  simp only [himm, Option.isSome_some, if_true] at hk
  refine ⟨hi.count, hi.sender, ?_, fun o ho => hi.imm o (List.mem_of_mem_erase ho), by simp [hw],
    fun hf => absurd hfins (Nat.pos_iff_ne_zero.mp hf)⟩
  simp only [hw, Bool.true_eq_false, false_and, if_false] at hrecv ⊢
  omega

theorem fin_received_inv (hi : Inv c s) (hf : 0 < s.fins) :
    Inv c { s with fins := s.fins - 1, receiver_signals := s.receiver_signals + 1 } := by
  have hw := hi.fins hf
  have hrecv := hi.receiver
  refine ⟨hi.count, hi.sender, ?_, hi.imm, by simp [hi.archived, hw], fun _ => hw⟩
  dsimp only
  omega

theorem step_inv {e : Event} (hi : Inv c s) (h : step c s e = some s') : Inv c s' := by
  rcases step_cases h with ⟨op, hop, rfl⟩ | ⟨op, hop, himm, rfl⟩ | ⟨op, hop, imm, himm, h⟩ |
      ⟨hf, rfl⟩
  · exact progress_write_inv hi hop
  · exact land_put_inv hi hop himm
  · exact land_putImm_inv hi hop himm h
  · exact fin_received_inv hi hf

theorem reachable_inv {size : Nat} (hsize : 0 < size) (hs : Reachable c size s) : Inv c s := by
  refine Machine.Reachable.induction_inv ?_ ?_ hs
  · rintro _ rfl
    exact start_inv c hsize
  · rintro s s' hi ⟨e, h⟩
    exact step_inv hi h

end Run

/-- **An empty message never completes.** A GPU build sends an empty message from a device buffer
by rendezvous; `handle_rdv_rtr` then starts the counter at zero and posts no write, so no event
can ever happen and neither side's completion is signaled. -/
theorem empty_transfer_never_completes (c : Config) (attr : RuntimeAttr) (rhandler tag : Nat)
    (comp_semantic : CompSemantic) (traits : Traits) :
    (set_protocol attr ⟨.OUT, true, 0, tag, comp_semantic, .device⟩ rhandler true traits).1 =
        .rdv_zcopy ∧
      handle_rdv_rtr c 0 = (0, []) ∧
      ∀ s, Reachable c 0 s →
        s = start c 0 ∧ Terminal c s ∧ s.sender_signals = 0 ∧ s.receiver_signals = 0 := by
  have hrtr : handle_rdv_rtr c 0 = (0, []) := by
    have hm := c.max_single_msg_size_pos
    rw [handle_rdv_rtr, post_writes_of_le c (le_refl 0), Nat.zero_add, Nat.div_eq_of_lt (by omega)]
    rfl
  have hterm : Terminal c (start c 0) := by
    intro e
    cases e <;> simp [step, start, hrtr]
  refine ⟨by simp [set_protocol, force_zcopy], hrtr, fun s hs => ?_⟩
  have heq : s = start c 0 := by
    refine @Machine.Reachable.induction_inv State _ _ (· = start c 0) (fun _ h => h) ?_ s hs
    rintro s s' rfl ⟨e, h⟩
    rw [hterm e] at h
    cases h
  subst heq
  exact ⟨rfl, hterm, rfl, rfl⟩

end Lci.Rendezvous
