import Lci.ShmRingDelivery

/-! The ring at the top of its position range. Positions are 63-bit: `reserve_impl` stops at
`maximum_position`, `initialize_at` admits a first position only if the whole first generation is
at most `maximum_position`, and `poll` and `release` store the free word of the next generation only
where it is at most `maximum_position`. These three guards line up: every word a slot ever holds
encodes a position of at most `maximum_position` (`Inv.slot_word`), so the 64-bit
`(position << 1) | state` of the code is the sequence of the model and loses no bit
(`encode_sequence64_toNat`); every reserved position is below `maximum_position`, so no position
wraps; the skipped stores are those of generations that can never be reserved; and a message
reserved below the limit is still published and then claimed in order (`publish_completes`,
`poll_claims_head`). -/

namespace Lci.ShmRing

open Backlog (errorcode_t)

def slot_state_t.val : slot_state_t → Nat
  | .reusable => 0
  | .published => 1

/-- `ring_t::encode_sequence`, in the 64 bits of the code. -/
def encode_sequence64 (position : BitVec 64) (state : slot_state_t) : BitVec 64 :=
  (position <<< 1) ||| BitVec.ofNat 64 state.val

/-- Up to `maximum_position` the shift keeps every bit of the position, so the code's word is the
model's sequence. -/
theorem encode_sequence64_toNat {q : Nat} (hq : q ≤ maximum_position) (state : slot_state_t) :
    (encode_sequence64 (BitVec.ofNat 64 q) state).toNat = encode_sequence q state := by
  unfold maximum_position at hq
  have hshift : (BitVec.ofNat 64 q <<< 1).toNat = 2 * q := by
    rw [BitVec.toNat_shiftLeft, BitVec.toNat_ofNat, Nat.mod_eq_of_lt (by omega), Nat.shiftLeft_eq]
    omega
  rw [encode_sequence64, BitVec.toNat_or, hshift, BitVec.toNat_ofNat]
  cases state with
  | reusable => simp [slot_state_t.val, encode_sequence]
  | published =>
    -- the low bit of `2 * q` is free for the state
    have hbit := Nat.lor_bit false q true 0
    simpa [slot_state_t.val, encode_sequence, Nat.bit_val] using hbit

/-- One position past the limit the top bit is lost: the first word of position `2 ^ 63` is the
first word of position 0. -/
example : encode_sequence64 (BitVec.ofNat 64 (2 ^ 63)) .reusable =
    encode_sequence64 (BitVec.ofNat 64 0) .reusable := by decide

theorem exists_slot_index_eq (g : Geometry) (a : Nat) {j : Nat} (hj : j < g.slot_count) :
    ∃ q, a ≤ q ∧ q < a + g.slot_count ∧ slot_index g q = j := by
  have hN := g.slot_count_pos
  have hr := Nat.mod_lt a hN
  have hx := Nat.mod_lt (j + g.slot_count - a % g.slot_count) hN
  refine ⟨a + (j + g.slot_count - a % g.slot_count) % g.slot_count, by omega, by omega, ?_⟩
  rw [slot_index_eq_mod, Nat.add_mod, Nat.mod_mod, Nat.add_mod_mod,
    show a % g.slot_count + (j + g.slot_count - a % g.slot_count) = j + g.slot_count by omega,
    Nat.add_mod_right, Nat.mod_eq_of_lt hj]

variable {g : Geometry} {s : State}

theorem released_sequence_le {q : Nat} (hq : q ≤ maximum_position) :
    ∃ q' state, released_sequence g q = encode_sequence q' state ∧ q' ≤ maximum_position := by
  have hN := g.slot_count_le
  unfold released_sequence
  split
  · exact ⟨q + g.slot_count, .reusable, rfl, by omega⟩
  · exact ⟨q, .published, rfl, hq⟩

theorem SlotFits.word_le {q : Nat} (h : SlotFits g s q) (hq : q ≤ maximum_position) :
    ∃ q' state, (s.slots (slot_index g q)).sequence = encode_sequence q' state ∧
      q' ≤ maximum_position := by
  by_cases hC : s.consumer_position ≤ q
  · by_cases ho : ProducerOwns s q
    · exact ⟨q, .reusable, h.reserved hC ho, hq⟩
    · exact ⟨q, .published, (h.published hC ho).1, hq⟩
  · by_cases ho : ConsumerOwns s q
    · exact ⟨q, .published, (h.claimed (by omega) ho).1, hq⟩
    · rw [h.freed (by omega) ho]
      exact released_sequence_le hq

/-- **Every word a slot holds is encodable.** The `N` slots belong to the `N` positions below the
producer position, or to the first generation while the ring is young; each holds the word of one
of them or of the next generation, all at most `maximum_position`. -/
theorem Inv.slot_word (hi : Inv g s) {j : Nat} (hj : j < g.slot_count) :
    ∃ q state, (s.slots j).sequence = encode_sequence q state ∧ q ≤ maximum_position := by
  have hP := hi.producer_le_max
  have hP0 := hi.initial_le
  have hCP := hi.consumer_le
  have hfirst := g.initial_position_le
  have hN := g.slot_count_pos
  have hNmax := g.slot_count_le
  obtain ⟨a, ha1, ha2, ha3⟩ : ∃ a, g.initial_position ≤ a ∧ s.producer_position ≤ a + g.slot_count ∧
      (a + g.slot_count ≤ s.producer_position ∨ a = g.initial_position) := by
    by_cases hyoung : g.initial_position + g.slot_count ≤ s.producer_position
    · exact ⟨s.producer_position - g.slot_count, by omega, by omega, .inl (by omega)⟩
    · exact ⟨g.initial_position, le_rfl, by omega, .inr rfl⟩
  obtain ⟨q, hq1, hq2, rfl⟩ := exists_slot_index_eq g a hj
  by_cases hq : q < s.producer_position
  · exact (hi.window q (by omega) hq (by omega)).word_le (by omega)
  · have hfresh : q < g.initial_position + g.slot_count := by omega
    exact ⟨q, .reusable, hi.fresh q (by omega) hfresh, by omega⟩

/-- No position wraps: the consumer position trails the producer position, which never passes
`maximum_position`, and every reserved or claimed position is below it, so `position + 1` fits. -/
theorem Inv.positions_below_max (hi : Inv g s) :
    s.consumer_position ≤ s.producer_position ∧ s.producer_position ≤ maximum_position ∧
      (∀ r ∈ s.reservations, r.position < maximum_position) ∧
      (∀ x ∈ s.claims, x.1 < maximum_position) := by
  have hP := hi.producer_le_max
  have hCP := hi.consumer_le
  refine ⟨hCP, hP, fun r hr => ?_, fun x hx => ?_⟩
  · have := (hi.mem_reservations hr).2
    omega
  · have := (hi.mem_claims hx).2
    omega

/-- A `release` or a corrupted `poll` skips the store only for a position whose next generation
is past `maximum_position`, and no position past it is ever reserved. -/
theorem Inv.skipped_never_reserved (hi : Inv g s) {q : Nat}
    (hskip : ¬ q ≤ maximum_position - g.slot_count) :
    ∀ r ∈ s.reservations, r.position ≠ q + g.slot_count := by
  intro r hr heq
  have := (hi.positions_below_max).2.2.1 r hr
  omega

theorem reserve_at_limit {k attempt : Nat} {m : Msg} (spurious : Bool)
    (hk : s.ops k = .reserve m attempt) (ha : attempt < g.producer_cas_attempts)
    (hmax : maximum_position ≤ s.producer_position) :
    step g s k (.run spurious) = some (s.setOp k (.sent m .fatal)) := by
  simp only [step, hk, run, if_pos ha, ge_iff_le, if_pos hmax]

/-! ### Progress -/

section Progress

variable {k : Nat}

theorem Reachable.run_step (hs : Reachable g s) (k : Nat) (spurious : Bool) {s' : State}
    (h : run g s k spurious (s.ops k) = some s') : Reachable g s' :=
  Machine.Reachable.step hs ⟨k, .run spurious, h⟩

/-- A `post_send` past its winning CAS publishes its message in three steps, whatever the
position. -/
theorem publish_completes (hs : Reachable g s) {m : Msg} {p : Nat}
    (hk : s.ops k = .publish_check m p) :
    ∃ s', Reachable g s' ∧ s'.ops k = .sent m .done ∧
      (s'.slots (slot_index g p)).sequence = encode_sequence p .published ∧
      (s'.slots (slot_index g p)).Holds m := by
  have hseq := (reachable_inv hs).seq_of_reserved (k := k) (by rw [hk]; rfl)
  have h₁ : Reachable g (s.setOp k (.publish_write m p)) :=
    hs.run_step k false (by simp [hk, run, hseq])
  have h₂ : Reachable g ((s.setOp k (.publish_store m p)).setSlot (slot_index g p)
      ((s.slots (slot_index g p)).write m)) :=
    h₁.run_step k false (by simp [run, State.setOp])
  have h₃ : Reachable g ((s.setOp k (.sent m .done)).setSlot (slot_index g p)
      (((s.slots (slot_index g p)).write m).store (encode_sequence p .published))) :=
    h₂.run_step k false (by simp [run, State.setOp, State.setSlot])
  refine ⟨_, h₃, by simp [State.setOp], by simp [State.setSlot], ?_⟩
  simpa [State.setSlot] using Slot.store_holds (Slot.write_holds _ m) (encode_sequence p .published)

/-- **The head is delivered.** When the message at the consumer position has been published, an
idle operation claims it by a `poll` of four steps and holds a view of the message reserved
there; nothing in `poll` stops short of `maximum_position`. -/
theorem poll_claims_head (hs : Reachable g s) (hk : s.ops k = .none)
    (hc : s.consumer_position < s.producer_position)
    (hpub : ¬ ProducerOwns s s.consumer_position) (ha : 0 < g.consumer_cas_attempts) :
    ∃ s' v, Reachable g s' ∧ s'.ops k = .holding v ∧ v.position = s.consumer_position ∧
      s'.consumer_position = s.consumer_position + 1 ∧
      ∃ r ∈ s'.reservations, r.position = v.position ∧ v.Fits r.msg := by
  have hi := reachable_inv hs
  have hfits := hi.window s.consumer_position hi.initial_le hc hi.producer_le
  obtain ⟨hseq, r, hr, hrp, hholds⟩ := hfits.published le_rfl hpub
  have hvalid := (hi.reservation_current r hr).1
  have hmeta : ¬ ((s.slots (slot_index g s.consumer_position)).payload_size > g.max_payload_size ∨
      (s.slots (slot_index g s.consumer_position)).source_global_rank < 0) := by
    rw [hholds.1, hholds.2.2.1]
    have := hvalid.1
    have := hvalid.2
    omega
  have h₁ : Reachable g (s.setOp k (.poll 0)) :=
    Machine.Reachable.step hs ⟨k, .poll, by simp [step, hk]⟩
  have h₂ : Reachable g (s.setOp k (.poll_seq 0 s.consumer_position)) :=
    h₁.run_step k false (by simp [run, ha, State.setOp])
  have h₃ : Reachable g (s.setOp k (.poll_cas 0 s.consumer_position)) :=
    h₂.run_step k false (by simp [run, hseq, State.setOp])
  have h₄ : Reachable g (s.claim k s.consumer_position) :=
    h₃.run_step k false (by simp [run, State.setOp, State.claim])
  set sl := s.slots (slot_index g s.consumer_position)
  set v : View := ⟨sl.source_global_rank, sl.imm_data, sl.payload_size, s.consumer_position⟩
  have h₅ : Reachable g ((s.claim k s.consumer_position).setOp k (.holding v)) := by
    refine h₄.run_step k false ?_
    simp only [State.claim_ops, Function.update_self, run, State.claim_slots]
    simp only [gt_iff_lt, not_or, not_lt] at hmeta
    simp [hmeta, v, sl]
  refine ⟨_, v, h₅, by simp, rfl, by simp, ?_⟩
  have hop := (reachable_inv h₅).ops k
  simp only [State.setOp_ops, Function.update_self, OpInv] at hop
  exact hop.2.2

end Progress

/-- **The ring at its limit.** In every run from `initialize_at`: every slot word encodes a
position of at most `maximum_position`, so the code's 64-bit `(position << 1) | state` is that
sequence and distinct stored words are distinct pairs; the positions never wrap; `post_send` of
an accepted message fails with `fatal` only once the producer position has reached
`maximum_position`, and from then on each reserve attempt does; a message reserved before is
published and claimed in order; and a skipped next-generation store belongs to a generation that
is never reserved. -/
theorem ring_position_limits (hs : Reachable g s) :
    (∀ j < g.slot_count, ∃ q state, (s.slots j).sequence = encode_sequence q state ∧
      q ≤ maximum_position ∧
      (encode_sequence64 (BitVec.ofNat 64 q) state).toNat = (s.slots j).sequence) ∧
    (s.consumer_position ≤ s.producer_position ∧ s.producer_position ≤ maximum_position ∧
      (∀ r ∈ s.reservations, r.position < maximum_position) ∧
      (∀ x ∈ s.claims, x.1 < maximum_position)) ∧
    (∀ k m, s.ops k = .sent m .fatal → m.Valid g → maximum_position ≤ s.producer_position) ∧
    (∀ k m attempt spurious, s.ops k = .reserve m attempt → attempt < g.producer_cas_attempts →
      maximum_position ≤ s.producer_position →
      step g s k (.run spurious) = some (s.setOp k (.sent m .fatal))) ∧
    (∀ k m p, s.ops k = .publish_check m p → ∃ s', Reachable g s' ∧ s'.ops k = .sent m .done ∧
      (s'.slots (slot_index g p)).sequence = encode_sequence p .published ∧
      (s'.slots (slot_index g p)).Holds m) ∧
    (∀ k, s.ops k = .none → s.consumer_position < s.producer_position →
      ¬ ProducerOwns s s.consumer_position → 0 < g.consumer_cas_attempts →
      ∃ s' v, Reachable g s' ∧ s'.ops k = .holding v ∧ v.position = s.consumer_position ∧
        s'.consumer_position = s.consumer_position + 1 ∧
        ∃ r ∈ s'.reservations, r.position = v.position ∧ v.Fits r.msg) ∧
    s.claims.map Prod.fst =
      List.range' g.initial_position (s.consumer_position - g.initial_position) ∧
    (∀ q, ¬ q ≤ maximum_position - g.slot_count →
      ∀ r ∈ s.reservations, r.position ≠ q + g.slot_count) := by
  have hi := reachable_inv hs
  refine ⟨fun j hj => ?_, hi.positions_below_max, fun k m hk hv => ?_,
    fun k m attempt spurious hk ha hmax => reserve_at_limit spurious hk ha hmax,
    fun k m p hk => publish_completes hs hk, fun k hk hc hpub ha => poll_claims_head hs hk hc hpub ha,
    hi.claims, fun q hq => hi.skipped_never_reserved hq⟩
  · obtain ⟨q, state, hseq, hq⟩ := hi.slot_word hj
    exact ⟨q, state, hseq, hq, by rw [encode_sequence64_toNat hq, hseq]⟩
  · have hop := hi.ops k
    rw [hk] at hop
    exact (hop rfl).resolve_left (not_not.mpr hv)

theorem four_eq_two_pow : ∃ k, (4 : Nat) = 2 ^ k := ⟨2, rfl⟩

theorem four_le_maximum_position : 4 ≤ maximum_position := by
  unfold maximum_position
  norm_num

/-- Four slots whose first generation is the last one: positions `maximum_position - 4` to
`maximum_position - 1`, as in the ring's exhaustion test. -/
def limitGeometry : Geometry where
  slot_count := 4
  slot_count_pow := four_eq_two_pow
  slot_count_le := four_le_maximum_position
  max_payload_size := 8
  initial_position := maximum_position - 4
  initial_position_le := by unfold maximum_position; norm_num
  producer_cas_attempts := 1
  consumer_cas_attempts := 1

/-- Three `post_send`s fill the last positions but one, a fourth reserves `maximum_position - 1`
and has not published it, and a poll holds the first; then a `post_send` finds the producer
position at `maximum_position` and returns `fatal`, and another has just been called. -/
def limit_run : List (Nat × Action) :=
  [(0, .post_send ⟨0, [1], 1⟩), (0, .run false), (0, .run false), (0, .run false),
    (0, .run false), (0, .run false), (0, .run false),
    (1, .post_send ⟨0, [2], 2⟩), (1, .run false), (1, .run false), (1, .run false),
    (1, .run false), (1, .run false), (1, .run false),
    (2, .post_send ⟨0, [3], 3⟩), (2, .run false), (2, .run false), (2, .run false),
    (2, .run false), (2, .run false), (2, .run false),
    (3, .post_send ⟨0, [4], 4⟩), (3, .run false), (3, .run false), (3, .run false),
    (4, .poll), (4, .run false), (4, .run false), (4, .run false), (4, .run false),
    (5, .post_send ⟨0, [5], 5⟩), (5, .run false),
    (6, .post_send ⟨0, [6], 6⟩)]

/-- Where `limit_run` leaves the ring. -/
def limit_state : State :=
  (limit_run.foldlM (fun s ka => step limitGeometry s ka.1 ka.2) (initialize_at limitGeometry)).getD
    (initialize_at limitGeometry)

theorem ring_position_limits_at_limit :
    let s := limit_state
    Reachable limitGeometry s ∧ s.producer_position = maximum_position ∧
      s.consumer_position = maximum_position - 3 ∧ s.ops 5 = .sent ⟨0, [5], 5⟩ .fatal ∧
      s.ops 6 = .reserve ⟨0, [6], 6⟩ 0 ∧ s.ops 3 = .publish_check ⟨0, [4], 4⟩ (maximum_position - 1) ∧
      s.ops 4 = .holding ⟨0, 1, 1, maximum_position - 4⟩ ∧ s.ops 7 = .none ∧
      ((∀ j < limitGeometry.slot_count, ∃ q state, (s.slots j).sequence = encode_sequence q state ∧
        q ≤ maximum_position ∧
        (encode_sequence64 (BitVec.ofNat 64 q) state).toNat = (s.slots j).sequence) ∧
      (s.consumer_position ≤ s.producer_position ∧ s.producer_position ≤ maximum_position ∧
        (∀ r ∈ s.reservations, r.position < maximum_position) ∧
        (∀ x ∈ s.claims, x.1 < maximum_position)) ∧
      (∀ k m, s.ops k = .sent m .fatal → m.Valid limitGeometry →
        maximum_position ≤ s.producer_position) ∧
      (∀ k m attempt spurious, s.ops k = .reserve m attempt →
        attempt < limitGeometry.producer_cas_attempts → maximum_position ≤ s.producer_position →
        step limitGeometry s k (.run spurious) = some (s.setOp k (.sent m .fatal))) ∧
      (∀ k m p, s.ops k = .publish_check m p → ∃ s', Reachable limitGeometry s' ∧
        s'.ops k = .sent m .done ∧
        (s'.slots (slot_index limitGeometry p)).sequence = encode_sequence p .published ∧
        (s'.slots (slot_index limitGeometry p)).Holds m) ∧
      (∀ k, s.ops k = .none → s.consumer_position < s.producer_position →
        ¬ ProducerOwns s s.consumer_position → 0 < limitGeometry.consumer_cas_attempts →
        ∃ s' v, Reachable limitGeometry s' ∧ s'.ops k = .holding v ∧
          v.position = s.consumer_position ∧ s'.consumer_position = s.consumer_position + 1 ∧
          ∃ r ∈ s'.reservations, r.position = v.position ∧ v.Fits r.msg) ∧
      s.claims.map Prod.fst = List.range' limitGeometry.initial_position
        (s.consumer_position - limitGeometry.initial_position) ∧
      (∀ q, ¬ q ≤ maximum_position - limitGeometry.slot_count →
        ∀ r ∈ s.reservations, r.position ≠ q + limitGeometry.slot_count)) :=
  have hs : Reachable limitGeometry limit_state :=
    reachable_of_run limitGeometry limit_run (by decide +kernel)
  ⟨hs, by decide +kernel, by decide +kernel, rfl, rfl, rfl, rfl, rfl, ring_position_limits hs⟩

end Lci.ShmRing
