import Lci.Backlog

/-! The shared-memory ring of `shm/ring.cpp`: a fixed array of slots and two 63-bit positions.
A producer reserves the slot of the producer position with a CAS on that position, when the
slot's sequence word says the slot is free for that generation, writes the header and the payload,
and publishes with a release store of the sequence word. A consumer claims the slot of the
consumer position with a CAS, when the word says it is published for that generation, reads it
through a view, and frees it for the next generation with `release`.

Every atomic access is one step of one call: position loads, sequence loads, the two CASes (a
weak CAS may fail spuriously), the header and payload writes and the sequence stores. A call is an
operation with its own program point; operations are created at any time and their steps
interleave in any order, which covers every schedule of any number of producer and consumer
threads. The ghost logs `reservations` and `claims` record every winning CAS. -/

namespace Lci.ShmRing

open Backlog (errorcode_t)

/-- `ring_t::maximum_position`: positions use 63 bits. -/
def maximum_position : Nat := 2 ^ 63 - 1

inductive slot_state_t
  | reusable
  | published
  deriving DecidableEq, Repr

/-- `encode_sequence`: `(position << 1) | state`. Positions never exceed `maximum_position`, so the
shift stays within 64 bits. -/
def encode_sequence (position : Nat) : slot_state_t → Nat
  | .reusable => 2 * position
  | .published => 2 * position + 1

/-- A ring as `initialize_at` and the constructor accept it: a power-of-two slot count that
`required_size` accepts, the payload capacity of a slot, an initial position that leaves every
first generation encodable, and the CAS attempt bounds. -/
structure Geometry where
  slot_count : Nat
  slot_count_pow : ∃ k, slot_count = 2 ^ k
  slot_count_le : slot_count ≤ maximum_position
  max_payload_size : Nat
  initial_position : Nat
  initial_position_le : initial_position ≤ maximum_position - (slot_count - 1)
  producer_cas_attempts : Nat
  consumer_cas_attempts : Nat

/-- The slot index of `slot_at`: `position & (slot_count - 1)`. -/
def slot_index (g : Geometry) (position : Nat) : Nat := position &&& (g.slot_count - 1)

theorem Geometry.slot_count_pos (g : Geometry) : 0 < g.slot_count := by
  obtain ⟨k, hk⟩ := g.slot_count_pow
  rw [hk]
  exact Nat.two_pow_pos k

@[simp] theorem encode_sequence_inj {p q : Nat} {a b : slot_state_t} :
    encode_sequence p a = encode_sequence q b ↔ p = q ∧ a = b := by
  cases a <;> cases b <;> simp [encode_sequence] <;> omega

theorem slot_index_eq_mod (g : Geometry) (position : Nat) :
    slot_index g position = position % g.slot_count := by
  obtain ⟨k, hk⟩ := g.slot_count_pow
  rw [slot_index, hk, Nat.and_two_pow_sub_one_eq_mod]

theorem slot_index_lt (g : Geometry) (position : Nat) : slot_index g position < g.slot_count := by
  rw [slot_index_eq_mod]
  exact Nat.mod_lt _ g.slot_count_pos

/-- Positions less than a generation apart have different slots. -/
theorem eq_of_slot_index_eq (g : Geometry) {p q : Nat} (h : slot_index g p = slot_index g q)
    (hpq : p < q + g.slot_count) (hqp : q < p + g.slot_count) : p = q := by
  rw [slot_index_eq_mod, slot_index_eq_mod] at h
  rcases Nat.le_total p q with hle | hle
  · have hdvd := Nat.dvd_of_mod_eq_zero (Nat.sub_mod_eq_zero_of_mod_eq h.symm)
    have := Nat.eq_zero_of_dvd_of_lt hdvd (by omega)
    omega
  · have hdvd := Nat.dvd_of_mod_eq_zero (Nat.sub_mod_eq_zero_of_mod_eq h)
    have := Nat.eq_zero_of_dvd_of_lt hdvd (by omega)
    omega

/-- `is_previous_generation`. -/
def is_previous_generation (g : Geometry) (sequence position : Nat) : Bool :=
  if position < g.slot_count then false
  else
    let previous := position - g.slot_count
    sequence == encode_sequence previous .reusable ||
      sequence == encode_sequence previous .published

/-- A slot: its sequence word, its header and the bytes of its payload area. -/
structure Slot where
  sequence : Nat
  payload_size : Nat
  imm_data : BitVec 32
  source_global_rank : Int
  payload : List UInt8

/-- The arguments of `post_send`. -/
structure Msg where
  source_global_rank : Int
  data : List UInt8
  imm_data : BitVec 32

/-- A `recv_slot_t` filled by a successful `poll`; its payload is the slot's payload area. -/
structure View where
  source_global_rank : Int
  imm_data : BitVec 32
  size : Nat
  position : Nat

/-- The `std::runtime_error`s the ring throws. -/
inductive Failure
  | reservation_corrupted
  | sequence_inconsistent
  | metadata_corrupted
  | claimed_corrupted

/-- An operation at its program point: a `post_send` of `m` (its `reserve` loop with the attempt
number and what it has loaded, then `publish`), or a `poll` followed by `release` of its view. -/
inductive Op
  | none
  | reserve (m : Msg) (attempt : Nat)
  | reserve_seq (m : Msg) (attempt position : Nat)
  | reserve_check (m : Msg) (attempt position sequence : Nat)
  | reserve_cas (m : Msg) (attempt position : Nat)
  | publish_check (m : Msg) (position : Nat)
  | publish_write (m : Msg) (position : Nat)
  | publish_store (m : Msg) (position : Nat)
  | sent (m : Msg) (result : errorcode_t)
  | poll (attempt : Nat)
  | poll_seq (attempt position : Nat)
  | poll_check (attempt position sequence : Nat)
  | poll_cas (attempt position : Nat)
  | claimed (position : Nat)
  | polled_none
  | holding (v : View)
  | release_check (v : View)
  | release_store (v : View)
  | released
  | failed (f : Failure)

/-- A winning producer CAS: the position, the operation, and the message it reserved for. -/
structure Reservation where
  position : Nat
  op : Nat
  msg : Msg

structure State where
  producer_position : Nat
  consumer_position : Nat
  slots : Nat → Slot
  ops : Nat → Op
  reservations : List Reservation
  claims : List (Nat × Nat)

namespace State

def setOp (s : State) (k : Nat) (o : Op) : State := { s with ops := Function.update s.ops k o }

def setSlot (s : State) (i : Nat) (sl : Slot) : State :=
  { s with slots := Function.update s.slots i sl }

@[simp] theorem setOp_producer_position (s : State) (k : Nat) (o : Op) :
    (s.setOp k o).producer_position = s.producer_position := rfl
@[simp] theorem setOp_consumer_position (s : State) (k : Nat) (o : Op) :
    (s.setOp k o).consumer_position = s.consumer_position := rfl
@[simp] theorem setOp_slots (s : State) (k : Nat) (o : Op) : (s.setOp k o).slots = s.slots := rfl
@[simp] theorem setOp_reservations (s : State) (k : Nat) (o : Op) :
    (s.setOp k o).reservations = s.reservations := rfl
@[simp] theorem setOp_claims (s : State) (k : Nat) (o : Op) : (s.setOp k o).claims = s.claims :=
  rfl
@[simp] theorem setOp_ops (s : State) (k : Nat) (o : Op) :
    (s.setOp k o).ops = Function.update s.ops k o := rfl
@[simp] theorem setSlot_producer_position (s : State) (i : Nat) (sl : Slot) :
    (s.setSlot i sl).producer_position = s.producer_position := rfl
@[simp] theorem setSlot_consumer_position (s : State) (i : Nat) (sl : Slot) :
    (s.setSlot i sl).consumer_position = s.consumer_position := rfl
@[simp] theorem setSlot_slots (s : State) (i : Nat) (sl : Slot) :
    (s.setSlot i sl).slots = Function.update s.slots i sl := rfl
@[simp] theorem setSlot_ops (s : State) (i : Nat) (sl : Slot) : (s.setSlot i sl).ops = s.ops := rfl
@[simp] theorem setSlot_reservations (s : State) (i : Nat) (sl : Slot) :
    (s.setSlot i sl).reservations = s.reservations := rfl
@[simp] theorem setSlot_claims (s : State) (i : Nat) (sl : Slot) :
    (s.setSlot i sl).claims = s.claims := rfl

end State

/-- `publish`'s writes: the header, then the payload when the message is not empty. -/
def Slot.write (sl : Slot) (m : Msg) : Slot :=
  { sl with
    payload_size := m.data.length
    imm_data := m.imm_data
    source_global_rank := m.source_global_rank
    payload := if m.data.length ≠ 0 then m.data ++ sl.payload.drop m.data.length else sl.payload }

/-- A sequence store. -/
def Slot.store (sl : Slot) (sequence : Nat) : Slot := { sl with sequence := sequence }

@[simp] theorem Slot.write_sequence (sl : Slot) (m : Msg) : (sl.write m).sequence = sl.sequence :=
  rfl

@[simp] theorem Slot.store_sequence (sl : Slot) (sequence : Nat) :
    (sl.store sequence).sequence = sequence := rfl

/-- The winning producer CAS: the position moves on and `k` owns the slot. -/
def State.reserve (s : State) (k : Nat) (m : Msg) (position : Nat) : State :=
  { s.setOp k (.publish_check m position) with
    producer_position := position + 1
    reservations := s.reservations ++ [⟨position, k, m⟩] }

/-- The winning consumer CAS. -/
def State.claim (s : State) (k : Nat) (position : Nat) : State :=
  { s.setOp k (.claimed position) with
    consumer_position := position + 1
    claims := s.claims ++ [(position, k)] }

section Updates

variable (s : State) (k : Nat) (m : Msg) (position : Nat)

@[simp] theorem State.reserve_producer_position :
    (s.reserve k m position).producer_position = position + 1 := rfl
@[simp] theorem State.reserve_consumer_position :
    (s.reserve k m position).consumer_position = s.consumer_position := rfl
@[simp] theorem State.reserve_slots : (s.reserve k m position).slots = s.slots := rfl
@[simp] theorem State.reserve_ops :
    (s.reserve k m position).ops = Function.update s.ops k (.publish_check m position) := rfl
@[simp] theorem State.reserve_reservations :
    (s.reserve k m position).reservations = s.reservations ++ [⟨position, k, m⟩] := rfl
@[simp] theorem State.reserve_claims : (s.reserve k m position).claims = s.claims := rfl

@[simp] theorem State.claim_producer_position :
    (s.claim k position).producer_position = s.producer_position := rfl
@[simp] theorem State.claim_consumer_position :
    (s.claim k position).consumer_position = position + 1 := rfl
@[simp] theorem State.claim_slots : (s.claim k position).slots = s.slots := rfl
@[simp] theorem State.claim_ops :
    (s.claim k position).ops = Function.update s.ops k (.claimed position) := rfl
@[simp] theorem State.claim_reservations :
    (s.claim k position).reservations = s.reservations := rfl
@[simp] theorem State.claim_claims :
    (s.claim k position).claims = s.claims ++ [(position, k)] := rfl

end Updates

/-- The store that frees the slot of `position` for the next generation, where it is encodable. -/
def State.free (g : Geometry) (s : State) (position : Nat) : State :=
  if position ≤ maximum_position - g.slot_count then
    s.setSlot (slot_index g position)
      ((s.slots (slot_index g position)).store (encode_sequence (position + g.slot_count) .reusable))
  else s

section Free

variable (g : Geometry) (s : State) (position : Nat)

@[simp] theorem State.free_producer_position :
    (s.free g position).producer_position = s.producer_position := by
  unfold State.free; split <;> rfl
@[simp] theorem State.free_consumer_position :
    (s.free g position).consumer_position = s.consumer_position := by
  unfold State.free; split <;> rfl
@[simp] theorem State.free_ops : (s.free g position).ops = s.ops := by
  unfold State.free; split <;> rfl
@[simp] theorem State.free_reservations :
    (s.free g position).reservations = s.reservations := by
  unfold State.free; split <;> rfl
@[simp] theorem State.free_claims : (s.free g position).claims = s.claims := by
  unfold State.free; split <;> rfl

theorem State.free_slots_of_ne {j : Nat} (h : j ≠ slot_index g position) :
    (s.free g position).slots j = s.slots j := by
  unfold State.free; split
  · simp [Function.update_of_ne h]
  · rfl

/-- `free` writes the slot of the position, if anything. -/
theorem State.free_eq_setSlot :
    s.free g position =
      s.setSlot (slot_index g position) ((s.free g position).slots (slot_index g position)) := by
  unfold State.free; split
  · simp [State.setSlot]
  · simp [State.setSlot]

end Free

/-- The next atomic step of operation `k`, at program point `o`. `spurious` makes a
`compare_exchange_weak` fail although the position matched. -/
def run (g : Geometry) (s : State) (k : Nat) (spurious : Bool) : Op → Option State
  | .reserve m attempt =>
      if attempt < g.producer_cas_attempts then
        if s.producer_position ≥ maximum_position then some (s.setOp k (.sent m .fatal))
        else some (s.setOp k (.reserve_seq m attempt s.producer_position))
      else some (s.setOp k (.sent m .retry_lock))
  | .reserve_seq m attempt position =>
      let sequence := (s.slots (slot_index g position)).sequence
      if sequence ≠ encode_sequence position .reusable then
        some (s.setOp k (.reserve_check m attempt position sequence))
      else some (s.setOp k (.reserve_cas m attempt position))
  | .reserve_check m attempt position sequence =>
      -- a competing producer moved the head: contention, try again
      if s.producer_position ≠ position then some (s.setOp k (.reserve m (attempt + 1)))
      else if is_previous_generation g sequence position then
        some (s.setOp k (.sent m .retry_nomem))
      else some (s.setOp k (.sent m .fatal))
  | .reserve_cas m attempt position =>
      if s.producer_position = position ∧ spurious = false then some (s.reserve k m position)
      else some (s.setOp k (.reserve m (attempt + 1)))
  | .publish_check m position =>
      if (s.slots (slot_index g position)).sequence ≠ encode_sequence position .reusable then
        some (s.setOp k (.failed .reservation_corrupted))
      else some (s.setOp k (.publish_write m position))
  | .publish_write m position =>
      some ((s.setOp k (.publish_store m position)).setSlot (slot_index g position)
        ((s.slots (slot_index g position)).write m))
  | .publish_store m position =>
      some ((s.setOp k (.sent m .done)).setSlot (slot_index g position)
        ((s.slots (slot_index g position)).store (encode_sequence position .published)))
  | .poll attempt =>
      if attempt < g.consumer_cas_attempts then
        some (s.setOp k (.poll_seq attempt s.consumer_position))
      else some (s.setOp k .polled_none)
  | .poll_seq attempt position =>
      let sequence := (s.slots (slot_index g position)).sequence
      if sequence ≠ encode_sequence position .published then
        some (s.setOp k (.poll_check attempt position sequence))
      else some (s.setOp k (.poll_cas attempt position))
  | .poll_check attempt position sequence =>
      if s.consumer_position ≠ position then some (s.setOp k (.poll (attempt + 1)))
      else if sequence = encode_sequence position .reusable ∨
          (position ≥ g.slot_count ∧
            sequence = encode_sequence (position - g.slot_count) .published) then
        some (s.setOp k .polled_none)
      else some (s.setOp k (.failed .sequence_inconsistent))
  | .poll_cas attempt position =>
      if s.consumer_position = position ∧ spurious = false then some (s.claim k position)
      else some (s.setOp k (.poll (attempt + 1)))
  | .claimed position =>
      let slot := s.slots (slot_index g position)
      if slot.payload_size > g.max_payload_size ∨ slot.source_global_rank < 0 then
        some ((s.setOp k (.failed .metadata_corrupted)).free g position)
      else
        some (s.setOp k
          (.holding ⟨slot.source_global_rank, slot.imm_data, slot.payload_size, position⟩))
  | .release_check v =>
      if (s.slots (slot_index g v.position)).sequence ≠ encode_sequence v.position .published then
        some (s.setOp k (.failed .claimed_corrupted))
      else some (s.setOp k (.release_store v))
  | .release_store v => some ((s.setOp k .released).free g v.position)
  | _ => none

/-- What can happen next: operation `k` is a new `post_send` (which checks its arguments before
reserving), a new `poll`, a `release` of the view `k` holds, or `k`'s next atomic step. -/
inductive Action
  | post_send (m : Msg)
  | poll
  | release
  | run (spurious : Bool)

def step (g : Geometry) (s : State) (k : Nat) : Action → Option State
  | .post_send m =>
      match s.ops k with
      | .none =>
          if m.source_global_rank < 0 ∨ m.data.length > g.max_payload_size then
            some (s.setOp k (.sent m .fatal))
          else some (s.setOp k (.reserve m 0))
      | _ => none
  | .poll =>
      match s.ops k with
      | .none => some (s.setOp k (.poll 0))
      | _ => none
  | .release =>
      match s.ops k with
      | .holding v => some (s.setOp k (.release_check v))
      | _ => none
  | .run spurious => run g s k spurious (s.ops k)

/-- The first slot index of `initialize_at`, and each slot's distance from it:
`(i - initial_slot) & slot_mask`, in 64-bit arithmetic. -/
def initial_delta (g : Geometry) (i : Nat) : Nat :=
  let slot_mask := g.slot_count - 1
  let initial_slot := g.initial_position &&& slot_mask
  ((BitVec.ofNat 64 i - BitVec.ofNat 64 initial_slot) &&& BitVec.ofNat 64 slot_mask).toNat

/-- `initialize_at`: both positions at the initial one, slot `i` free for the generation of the
first position at or after it with that index. -/
def initialize_at (g : Geometry) : State where
  producer_position := g.initial_position
  consumer_position := g.initial_position
  slots i := ⟨encode_sequence (g.initial_position + initial_delta g i) .reusable, 0, 0, -1, []⟩
  ops _ := .none
  reservations := []
  claims := []

def Reachable (g : Geometry) : State → Prop :=
  Machine.Reachable (· = initialize_at g) (fun s s' => ∃ k a, step g s k a = some s')

theorem Geometry.slot_count_dvd (g : Geometry) : g.slot_count ∣ 2 ^ 64 := by
  obtain ⟨k, hk⟩ := g.slot_count_pow
  have hlt : 2 ^ k < 2 ^ 64 := by
    have := g.slot_count_le
    rw [hk] at this
    unfold maximum_position at this
    omega
  rw [hk]
  exact Nat.pow_dvd_pow 2 (Nat.pow_lt_pow_iff_right (by norm_num) |>.mp hlt).le

/-- The 64-bit distance of `initialize_at` is the distance modulo the slot count. -/
theorem initial_delta_eq (g : Geometry) {i : Nat} (hi : i < g.slot_count) :
    initial_delta g i = (i + g.slot_count - g.initial_position % g.slot_count) % g.slot_count := by
  obtain ⟨k, hk⟩ := g.slot_count_pow
  have hN := g.slot_count_pos
  have hdvd := g.slot_count_dvd
  have hmax : g.slot_count < 2 ^ 64 := by
    have := g.slot_count_le
    unfold maximum_position at this
    omega
  have hr : g.initial_position &&& (g.slot_count - 1) = g.initial_position % g.slot_count := by
    rw [hk, Nat.and_two_pow_sub_one_eq_mod]
  have hrN : g.initial_position % g.slot_count < g.slot_count := Nat.mod_lt _ hN
  simp only [initial_delta, BitVec.toNat_and, BitVec.toNat_sub, BitVec.toNat_ofNat, hr,
    Nat.mod_eq_of_lt (by omega : g.initial_position % g.slot_count < 2 ^ 64),
    Nat.mod_eq_of_lt (by omega : i < 2 ^ 64), Nat.mod_eq_of_lt (by omega : g.slot_count - 1 < 2 ^ 64)]
  rw [hk, Nat.and_two_pow_sub_one_eq_mod, ← hk, Nat.mod_mod_of_dvd _ hdvd]
  obtain ⟨d, hd⟩ := hdvd
  have hd1 : g.slot_count ≤ g.slot_count * d := Nat.le_mul_of_pos_right _ (by
    rcases Nat.eq_zero_or_pos d with h0 | h0
    · rw [h0, Nat.mul_zero] at hd
      exact absurd hd (by norm_num)
    · exact h0)
  have hsplit : 2 ^ 64 - g.initial_position % g.slot_count + i =
      (i + g.slot_count - g.initial_position % g.slot_count) + g.slot_count * (d - 1) := by
    rw [Nat.mul_sub_one, hd]
    omega
  rw [hsplit, Nat.add_mul_mod_self_left]

/-- A fresh ring: the slot of each position of the first generation is free for it. -/
theorem initialize_at_sequence (g : Geometry) {q : Nat} (h1 : g.initial_position ≤ q)
    (h2 : q < g.initial_position + g.slot_count) :
    ((initialize_at g).slots (slot_index g q)).sequence = encode_sequence q .reusable := by
  have hN := g.slot_count_pos
  simp only [initialize_at, encode_sequence_inj, and_true]
  rw [initial_delta_eq g (slot_index_lt g q), slot_index_eq_mod]
  obtain ⟨d, rfl⟩ : ∃ d, q = g.initial_position + d := ⟨q - g.initial_position, by omega⟩
  have hr := Nat.mod_lt g.initial_position hN
  have hq : (g.initial_position + d) % g.slot_count =
      (g.initial_position % g.slot_count + d) % g.slot_count := by
    rw [Nat.add_mod, Nat.mod_eq_of_lt (by omega : d < g.slot_count)]
  rw [hq]
  generalize g.initial_position % g.slot_count = r at hr ⊢
  rcases Nat.lt_or_ge (r + d) g.slot_count with hlt | hge
  · rw [Nat.mod_eq_of_lt hlt, show r + d + g.slot_count - r = d + g.slot_count by omega,
      Nat.add_mod_right, Nat.mod_eq_of_lt (by omega : d < g.slot_count)]
  · have hin : (r + d - g.slot_count) % g.slot_count = r + d - g.slot_count :=
      Nat.mod_eq_of_lt (by omega)
    rw [Nat.mod_eq_sub_mod hge, hin, show r + d - g.slot_count + g.slot_count - r = d by omega,
      Nat.mod_eq_of_lt (by omega : d < g.slot_count)]

end Lci.ShmRing
