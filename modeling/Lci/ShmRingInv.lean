import Lci.ShmRing

/-! The invariant of the ring. Between a winning producer CAS and its publication the producer
owns the slot of its position; between a winning consumer CAS and the store of `release` the
consumer owns it. The positions are `P₀ ≤ consumer ≤ producer ≤ consumer + N`, every position
below the producer position was reserved once, every one below the consumer position claimed
once, and the slot of each position of the current generation (the `N` positions below the
producer position) holds the word its state gives: free for it while a producer owns it,
published for it (with the reserved message) once published and while a consumer owns it, free
for the next generation once released. The first positions of a fresh ring have their slots free.
Each operation adds what it knows at its program point: what it loaded is still true while the
position it loaded has not moved. -/

namespace Lci.ShmRing

open Backlog (errorcode_t)

/-- The position whose slot a `post_send` owns, from its winning CAS to its publication. -/
def Op.reserved? : Op → Option Nat
  | .publish_check _ p | .publish_write _ p | .publish_store _ p => some p
  | _ => Option.none

/-- The position whose slot a `poll` owns, from its winning CAS to the store of `release`. -/
def Op.claimed? : Op → Option Nat
  | .claimed c => some c
  | .holding v | .release_check v | .release_store v => some v.position
  | _ => Option.none

/-- The operation is the `post_send` of `m` past its winning CAS at `p`. -/
def Op.Reserved (p : Nat) (m : Msg) : Op → Prop
  | .publish_check m' p' | .publish_write m' p' | .publish_store m' p' => m' = m ∧ p' = p
  | .sent m' r => m' = m ∧ r = .done
  | _ => False

/-- The operation is the `poll` past its winning CAS at `c`. -/
def Op.Claimed (c : Nat) : Op → Prop
  | .released => True
  | o => o.claimed? = some c

/-- What `post_send` checks of its arguments. -/
def Msg.Valid (g : Geometry) (m : Msg) : Prop :=
  0 ≤ m.source_global_rank ∧ m.data.length ≤ g.max_payload_size

/-- The slot's header and payload are those of `m`. -/
def Slot.Holds (sl : Slot) (m : Msg) : Prop :=
  sl.payload_size = m.data.length ∧ sl.imm_data = m.imm_data ∧
    sl.source_global_rank = m.source_global_rank ∧ sl.payload.take m.data.length = m.data

/-- The view's fields are those of `m`. -/
def View.Fits (v : View) (m : Msg) : Prop :=
  v.source_global_rank = m.source_global_rank ∧ v.imm_data = m.imm_data ∧ v.size = m.data.length

/-- The word of a released position: free for the next generation, unless that generation is not
encodable and `release` leaves the word as it is. -/
def released_sequence (g : Geometry) (q : Nat) : Nat :=
  if q ≤ maximum_position - g.slot_count then encode_sequence (q + g.slot_count) .reusable
  else encode_sequence q .published

def ProducerOwns (s : State) (q : Nat) : Prop := ∃ k, (s.ops k).reserved? = some q

def ConsumerOwns (s : State) (q : Nat) : Prop := ∃ k, (s.ops k).claimed? = some q

/-- The slot of `q` holds the message reserved at `q`. -/
def HoldsAt (g : Geometry) (s : State) (q : Nat) : Prop :=
  ∃ r ∈ s.reservations, r.position = q ∧ (s.slots (slot_index g q)).Holds r.msg

/-- The slot of a position of the current generation, by the position's state. -/
structure SlotFits (g : Geometry) (s : State) (q : Nat) : Prop where
  reserved : s.consumer_position ≤ q → ProducerOwns s q →
    (s.slots (slot_index g q)).sequence = encode_sequence q .reusable
  published : s.consumer_position ≤ q → ¬ ProducerOwns s q →
    (s.slots (slot_index g q)).sequence = encode_sequence q .published ∧ HoldsAt g s q
  claimed : q < s.consumer_position → ConsumerOwns s q →
    (s.slots (slot_index g q)).sequence = encode_sequence q .published ∧ HoldsAt g s q
  freed : q < s.consumer_position → ¬ ConsumerOwns s q →
    (s.slots (slot_index g q)).sequence = released_sequence g q

/-- What operation `k` knows at its program point. -/
def OpInv (g : Geometry) (s : State) (k : Nat) : Op → Prop
  | .none => True
  | .reserve m _ => m.Valid g
  | .reserve_seq m _ p => m.Valid g ∧ p ≤ s.producer_position ∧ p < maximum_position
  | .reserve_check m _ p sq => m.Valid g ∧ p ≤ s.producer_position ∧
      (s.producer_position = p → is_previous_generation g sq p = true)
  | .reserve_cas m _ p => m.Valid g ∧ p ≤ s.producer_position ∧ p < maximum_position ∧
      (s.producer_position = p →
        (s.slots (slot_index g p)).sequence = encode_sequence p .reusable)
  | .publish_check m p | .publish_write m p =>
      s.consumer_position ≤ p ∧ Reservation.mk p k m ∈ s.reservations
  | .publish_store m p => s.consumer_position ≤ p ∧ Reservation.mk p k m ∈ s.reservations ∧
      (s.slots (slot_index g p)).Holds m
  | .sent m r => r = .fatal → ¬ m.Valid g ∨ maximum_position ≤ s.producer_position
  | .poll _ => True
  | .poll_seq _ c => c ≤ s.consumer_position
  | .poll_check _ c sq => c ≤ s.consumer_position ∧ (s.consumer_position = c →
      sq = encode_sequence c .reusable ∨
        (g.slot_count ≤ c ∧ sq = encode_sequence (c - g.slot_count) .published))
  | .poll_cas _ c => c ≤ s.consumer_position ∧ (s.consumer_position = c →
      (s.slots (slot_index g c)).sequence = encode_sequence c .published)
  | .claimed c => (c, k) ∈ s.claims ∧ s.producer_position ≤ c + g.slot_count
  | .holding v | .release_check v | .release_store v =>
      (v.position, k) ∈ s.claims ∧ s.producer_position ≤ v.position + g.slot_count ∧
        ∃ r ∈ s.reservations, r.position = v.position ∧ v.Fits r.msg
  | .polled_none => True
  | .released => True
  | .failed _ => False

structure Inv (g : Geometry) (s : State) : Prop where
  initial_le : g.initial_position ≤ s.consumer_position
  consumer_le : s.consumer_position ≤ s.producer_position
  producer_le : s.producer_position ≤ s.consumer_position + g.slot_count
  producer_le_max : s.producer_position ≤ maximum_position
  reservations : s.reservations.map (·.position) =
    List.range' g.initial_position (s.producer_position - g.initial_position)
  reservation_ops : (s.reservations.map (·.op)).Nodup
  reservation_current : ∀ r ∈ s.reservations,
    r.msg.Valid g ∧ (s.ops r.op).Reserved r.position r.msg
  claims : s.claims.map Prod.fst =
    List.range' g.initial_position (s.consumer_position - g.initial_position)
  claim_ops : (s.claims.map Prod.snd).Nodup
  claim_current : ∀ x ∈ s.claims, (s.ops x.2).Claimed x.1
  window : ∀ q, g.initial_position ≤ q → q < s.producer_position →
    s.producer_position ≤ q + g.slot_count → SlotFits g s q
  fresh : ∀ q, s.producer_position ≤ q → q < g.initial_position + g.slot_count →
    (s.slots (slot_index g q)).sequence = encode_sequence q .reusable
  ops : ∀ k, OpInv g s k (s.ops k)

variable {g : Geometry} {s : State}

theorem init_inv (g : Geometry) : Inv g (initialize_at g) where
  initial_le := le_rfl
  consumer_le := le_rfl
  producer_le := Nat.le_add_right _ _
  producer_le_max := by
    have := g.initial_position_le
    have := g.slot_count_pos
    simp only [initialize_at]
    omega
  reservations := by simp [initialize_at]
  reservation_ops := List.nodup_nil
  reservation_current := by simp [initialize_at]
  claims := by simp [initialize_at]
  claim_ops := List.nodup_nil
  claim_current := by simp [initialize_at]
  window := fun q h1 h2 _ => absurd h2 (by simp only [initialize_at]; omega)
  fresh := fun q h1 h2 => initialize_at_sequence g h1 h2
  ops := fun _ => trivial

/-! ### Reading the invariant -/

theorem is_previous_generation_iff {sq p : Nat} :
    is_previous_generation g sq p = true ↔ g.slot_count ≤ p ∧
      (sq = encode_sequence (p - g.slot_count) .reusable ∨
        sq = encode_sequence (p - g.slot_count) .published) := by
  unfold is_previous_generation
  split
  · simp only [Bool.false_eq_true, false_iff, not_and]
    omega
  · simp only [Bool.or_eq_true, beq_iff_eq]
    omega

theorem slot_index_sub (g : Geometry) {p : Nat} (h : g.slot_count ≤ p) :
    slot_index g (p - g.slot_count) = slot_index g p := by
  rw [slot_index_eq_mod, slot_index_eq_mod, Nat.mod_eq_sub_mod h]

theorem slot_index_add (g : Geometry) (p : Nat) :
    slot_index g (p + g.slot_count) = slot_index g p := by
  rw [slot_index_eq_mod, slot_index_eq_mod, Nat.add_mod_right]

theorem Inv.mem_reservations (hi : Inv g s) {r : Reservation} (hr : r ∈ s.reservations) :
    g.initial_position ≤ r.position ∧ r.position < s.producer_position := by
  have h := List.mem_map_of_mem (f := (·.position)) hr
  rw [hi.reservations, List.mem_range'_1] at h
  have := hi.initial_le
  have := hi.consumer_le
  omega

theorem Inv.mem_claims (hi : Inv g s) {x : Nat × Nat} (hx : x ∈ s.claims) :
    g.initial_position ≤ x.1 ∧ x.1 < s.consumer_position := by
  have h := List.mem_map_of_mem (f := Prod.fst) hx
  rw [hi.claims, List.mem_range'_1] at h
  have := hi.initial_le
  omega

/-- One reservation per position. -/
theorem Inv.reservation_unique (hi : Inv g s) {r r' : Reservation} (hr : r ∈ s.reservations)
    (hr' : r' ∈ s.reservations) (h : r.position = r'.position) : r = r' := by
  have hnd : (s.reservations.map (·.position)).Nodup := by
    rw [hi.reservations]
    exact List.nodup_range'
  exact List.inj_on_of_nodup_map hnd hr hr' h

/-- One claim per position. -/
theorem Inv.claim_unique (hi : Inv g s) {x y : Nat × Nat} (hx : x ∈ s.claims)
    (hy : y ∈ s.claims) (h : x.1 = y.1) : x = y := by
  have hnd : (s.claims.map Prod.fst).Nodup := by
    rw [hi.claims]
    exact List.nodup_range'
  exact List.inj_on_of_nodup_map hnd hx hy h

theorem OpInv.producer_owner {k : Nat} {o : Op} (ho : OpInv g s k o) {p : Nat}
    (h : o.reserved? = some p) :
    s.consumer_position ≤ p ∧ ∃ m, Reservation.mk p k m ∈ s.reservations := by
  cases o <;> simp only [Op.reserved?, Option.some.injEq, reduceCtorEq] at h <;> subst h
  · exact ⟨ho.1, _, ho.2⟩
  · exact ⟨ho.1, _, ho.2⟩
  · exact ⟨ho.1, _, ho.2.1⟩

theorem OpInv.consumer_owner {k : Nat} {o : Op} (ho : OpInv g s k o) {c : Nat}
    (h : o.claimed? = some c) :
    (c, k) ∈ s.claims ∧ s.producer_position ≤ c + g.slot_count := by
  cases o <;> simp only [Op.claimed?, Option.some.injEq, reduceCtorEq] at h <;> subst h
  · exact ho
  all_goals exact ⟨ho.1, ho.2.1⟩

/-- A position owned by a producer is of the current generation and not claimed. -/
theorem Inv.producer_owned (hi : Inv g s) {k p : Nat} (h : (s.ops k).reserved? = some p) :
    g.initial_position ≤ p ∧ s.consumer_position ≤ p ∧ p < s.producer_position ∧
      s.producer_position ≤ p + g.slot_count := by
  obtain ⟨hC, m, hm⟩ := (hi.ops k).producer_owner h
  have hr := hi.mem_reservations hm
  have := hi.producer_le
  exact ⟨hr.1, hC, hr.2, by omega⟩

/-- A position owned by a consumer is of the current generation and claimed. -/
theorem Inv.consumer_owned (hi : Inv g s) {k c : Nat} (h : (s.ops k).claimed? = some c) :
    g.initial_position ≤ c ∧ c < s.consumer_position ∧ c < s.producer_position ∧
      s.producer_position ≤ c + g.slot_count := by
  obtain ⟨hc, hP⟩ := (hi.ops k).consumer_owner h
  have hx := hi.mem_claims hc
  have := hi.consumer_le
  exact ⟨hx.1, hx.2, by omega, hP⟩

theorem Inv.producer_owner_unique (hi : Inv g s) {k k' p : Nat}
    (h : (s.ops k).reserved? = some p) (h' : (s.ops k').reserved? = some p) : k = k' := by
  obtain ⟨-, m, hm⟩ := (hi.ops k).producer_owner h
  obtain ⟨-, m', hm'⟩ := (hi.ops k').producer_owner h'
  have := hi.reservation_unique hm hm' rfl
  simp only [Reservation.mk.injEq] at this
  exact this.2.1

theorem Inv.consumer_owner_unique (hi : Inv g s) {k k' c : Nat}
    (h : (s.ops k).claimed? = some c) (h' : (s.ops k').claimed? = some c) : k = k' := by
  have := hi.claim_unique ((hi.ops k).consumer_owner h).1 ((hi.ops k').consumer_owner h').1 rfl
  simp only [Prod.mk.injEq] at this
  exact this.2

theorem Inv.seq_of_reserved (hi : Inv g s) {k p : Nat} (h : (s.ops k).reserved? = some p) :
    (s.slots (slot_index g p)).sequence = encode_sequence p .reusable := by
  obtain ⟨h1, h2, h3, h4⟩ := hi.producer_owned h
  exact (hi.window p h1 h3 h4).reserved h2 ⟨k, h⟩

theorem Inv.seq_of_claimed (hi : Inv g s) {k c : Nat} (h : (s.ops k).claimed? = some c) :
    (s.slots (slot_index g c)).sequence = encode_sequence c .published ∧ HoldsAt g s c := by
  obtain ⟨h1, h2, h3, h4⟩ := hi.consumer_owned h
  exact (hi.window c h1 h3 h4).claimed h2 ⟨k, h⟩

/-- The slot of the producer position is free for it, or holds a word of the previous
generation. -/
theorem Inv.producer_head (hi : Inv g s) :
    (s.slots (slot_index g s.producer_position)).sequence =
        encode_sequence s.producer_position .reusable ∨
      is_previous_generation g (s.slots (slot_index g s.producer_position)).sequence
        s.producer_position = true := by
  have hN := g.slot_count_pos
  by_cases hf : s.producer_position < g.initial_position + g.slot_count
  · exact .inl (hi.fresh _ le_rfl hf)
  have hNP : g.slot_count ≤ s.producer_position := by have := hi.initial_le; omega
  have hq := hi.window (s.producer_position - g.slot_count) (by omega) (by omega) (by omega)
  rw [← slot_index_sub g hNP, is_previous_generation_iff]
  by_cases hC : s.consumer_position ≤ s.producer_position - g.slot_count
  · by_cases ho : ProducerOwns s (s.producer_position - g.slot_count)
    · exact .inr ⟨hNP, .inl (hq.reserved hC ho)⟩
    · exact .inr ⟨hNP, .inr (hq.published hC ho).1⟩
  · by_cases ho : ConsumerOwns s (s.producer_position - g.slot_count)
    · exact .inr ⟨hNP, .inr (hq.claimed (by omega) ho).1⟩
    · rw [hq.freed (by omega) ho, released_sequence]
      split
      · exact .inl (by rw [Nat.sub_add_cancel hNP])
      · exact .inr ⟨hNP, .inr rfl⟩

/-- The slot of the consumer position is published for it, free for it, or still published for
the position a generation back. -/
theorem Inv.consumer_head (hi : Inv g s) :
    (s.slots (slot_index g s.consumer_position)).sequence =
        encode_sequence s.consumer_position .published ∨
      (s.slots (slot_index g s.consumer_position)).sequence =
        encode_sequence s.consumer_position .reusable ∨
      (g.slot_count ≤ s.consumer_position ∧ (s.slots (slot_index g s.consumer_position)).sequence =
        encode_sequence (s.consumer_position - g.slot_count) .published) := by
  have hN := g.slot_count_pos
  rcases Nat.lt_or_ge s.consumer_position s.producer_position with hlt | hge
  · -- a reserved position: published, or still owned by its producer
    have hq := hi.window s.consumer_position hi.initial_le hlt hi.producer_le
    by_cases ho : ProducerOwns s s.consumer_position
    · exact .inr (.inl (hq.reserved le_rfl ho))
    · exact .inl (hq.published le_rfl ho).1
  have hCP : s.consumer_position = s.producer_position := le_antisymm hi.consumer_le hge
  by_cases hf : s.producer_position < g.initial_position + g.slot_count
  · rw [hCP]
    exact .inr (.inl (hi.fresh _ le_rfl hf))
  have hNP : g.slot_count ≤ s.consumer_position := by omega
  have hq := hi.window (s.consumer_position - g.slot_count) (by omega) (by omega) (by omega)
  rw [← slot_index_sub g hNP]
  by_cases ho : ConsumerOwns s (s.consumer_position - g.slot_count)
  · exact .inr (.inr ⟨hNP, (hq.claimed (by omega) ho).1⟩)
  · rw [hq.freed (by omega) ho, released_sequence]
    split
    · exact .inr (.inl (by rw [Nat.sub_add_cancel hNP]))
    · exact .inr (.inr ⟨hNP, rfl⟩)

/-- When the slot of the producer position is free for it, the ring is not full and no consumer
holds the position a generation back. -/
theorem Inv.producer_free (hi : Inv g s)
    (hfree : (s.slots (slot_index g s.producer_position)).sequence =
      encode_sequence s.producer_position .reusable) :
    s.producer_position < s.consumer_position + g.slot_count ∧
      ∀ k c, (s.ops k).claimed? = some c → s.producer_position < c + g.slot_count := by
  have hN := g.slot_count_pos
  constructor
  · by_contra hfull
    have hP : s.producer_position = s.consumer_position + g.slot_count := by
      have := hi.producer_le
      omega
    have hq := hi.window s.consumer_position hi.initial_le (by omega) (by omega)
    rw [hP, slot_index_add] at hfree
    by_cases ho : ProducerOwns s s.consumer_position
    · rw [hq.reserved le_rfl ho] at hfree
      simp at hfree
      omega
    · rw [(hq.published le_rfl ho).1] at hfree
      simp at hfree
  · intro k c hc
    obtain ⟨-, -, -, hPc⟩ := hi.consumer_owned hc
    by_contra hle
    have hP : s.producer_position = c + g.slot_count := by omega
    rw [hP, slot_index_add, (hi.seq_of_claimed hc).1] at hfree
    simp at hfree

/-- When the slot of the consumer position is published for it, the position is reserved and no
producer owns it. -/
theorem Inv.consumer_published (hi : Inv g s)
    (hpub : (s.slots (slot_index g s.consumer_position)).sequence =
      encode_sequence s.consumer_position .published) :
    s.consumer_position < s.producer_position ∧ ¬ ProducerOwns s s.consumer_position := by
  have hN := g.slot_count_pos
  have hlt : s.consumer_position < s.producer_position := by
    by_contra hge
    have hCP : s.consumer_position = s.producer_position := le_antisymm hi.consumer_le (by omega)
    by_cases hf : s.producer_position < g.initial_position + g.slot_count
    · rw [hCP, hi.fresh _ le_rfl hf] at hpub
      simp at hpub
    have hNP : g.slot_count ≤ s.consumer_position := by omega
    have hq := hi.window (s.consumer_position - g.slot_count) (by omega) (by omega) (by omega)
    rw [← slot_index_sub g hNP] at hpub
    by_cases ho : ConsumerOwns s (s.consumer_position - g.slot_count)
    · rw [(hq.claimed (by omega) ho).1] at hpub
      simp at hpub
      omega
    · rw [hq.freed (by omega) ho, released_sequence] at hpub
      split at hpub
      · simp at hpub
      · simp at hpub
        omega
  refine ⟨hlt, fun ho => ?_⟩
  have hq := hi.window s.consumer_position hi.initial_le hlt hi.producer_le
  rw [hq.reserved le_rfl ho] at hpub
  simp at hpub

/-! ### Steps that change one operation only -/

theorem HoldsAt.mono {s s' : State} {q : Nat} (h : HoldsAt g s q)
    (hslot : s'.slots (slot_index g q) = s.slots (slot_index g q))
    (hlog : ∀ r ∈ s.reservations, r ∈ s'.reservations) : HoldsAt g s' q := by
  obtain ⟨r, hr, hp, hh⟩ := h
  exact ⟨r, hlog r hr, hp, by rw [hslot]; exact hh⟩

theorem SlotFits.transfer {s s' : State} {q : Nat} (h : SlotFits g s q)
    (hslot : s'.slots (slot_index g q) = s.slots (slot_index g q))
    (hC : s'.consumer_position ≤ q ↔ s.consumer_position ≤ q)
    (hP : ProducerOwns s' q ↔ ProducerOwns s q) (hQ : ConsumerOwns s' q ↔ ConsumerOwns s q)
    (hlog : ∀ r ∈ s.reservations, r ∈ s'.reservations) : SlotFits g s' q where
  reserved h1 h2 := by
    rw [hslot]
    exact h.reserved (hC.mp h1) (hP.mp h2)
  published h1 h2 := by
    obtain ⟨hs, hh⟩ := h.published (hC.mp h1) (fun h3 => h2 (hP.mpr h3))
    exact ⟨by rw [hslot]; exact hs, hh.mono hslot hlog⟩
  claimed h1 h2 := by
    obtain ⟨hs, hh⟩ := h.claimed (Nat.lt_of_not_le fun h3 => Nat.not_le.mpr h1 (hC.mpr h3)) (hQ.mp h2)
    exact ⟨by rw [hslot]; exact hs, hh.mono hslot hlog⟩
  freed h1 h2 := by
    rw [hslot]
    exact h.freed (Nat.lt_of_not_le fun h3 => Nat.not_le.mpr h1 (hC.mpr h3)) (fun h3 => h2 (hQ.mpr h3))

theorem ProducerOwns_setOp {k : Nat} {o : Op} (h : o.reserved? = (s.ops k).reserved?) (q : Nat) :
    ProducerOwns (s.setOp k o) q ↔ ProducerOwns s q := by
  constructor
  · rintro ⟨k', hk'⟩
    by_cases hkk : k' = k
    · subst hkk
      simp only [State.setOp_ops, Function.update_self] at hk'
      exact ⟨k', h ▸ hk'⟩
    · exact ⟨k', by simpa [Function.update_of_ne hkk] using hk'⟩
  · rintro ⟨k', hk'⟩
    by_cases hkk : k' = k
    · subst hkk
      exact ⟨k', by simpa [h] using hk'⟩
    · exact ⟨k', by simpa [Function.update_of_ne hkk] using hk'⟩

theorem ConsumerOwns_setOp {k : Nat} {o : Op} (h : o.claimed? = (s.ops k).claimed?) (q : Nat) :
    ConsumerOwns (s.setOp k o) q ↔ ConsumerOwns s q := by
  constructor
  · rintro ⟨k', hk'⟩
    by_cases hkk : k' = k
    · subst hkk
      simp only [State.setOp_ops, Function.update_self] at hk'
      exact ⟨k', h ▸ hk'⟩
    · exact ⟨k', by simpa [Function.update_of_ne hkk] using hk'⟩
  · rintro ⟨k', hk'⟩
    by_cases hkk : k' = k
    · subst hkk
      exact ⟨k', by simpa [h] using hk'⟩
    · exact ⟨k', by simpa [Function.update_of_ne hkk] using hk'⟩

@[simp] theorem OpInv_setOp {k k' : Nat} {o o' : Op} :
    OpInv g (s.setOp k o) k' o' ↔ OpInv g s k' o' := Iff.rfl

/-- A step that only moves operation `k` to a program point with the same ownership keeps the
invariant, given what `k` knows there. -/
theorem Inv.setOp (hi : Inv g s) {k : Nat} {o : Op}
    (hres : o.reserved? = (s.ops k).reserved?) (hcl : o.claimed? = (s.ops k).claimed?)
    (hcur : ∀ p m, (s.ops k).Reserved p m → o.Reserved p m)
    (hclaimed : ∀ c, (s.ops k).Claimed c → o.Claimed c)
    (hop : OpInv g s k o) : Inv g (s.setOp k o) where
  initial_le := hi.initial_le
  consumer_le := hi.consumer_le
  producer_le := hi.producer_le
  producer_le_max := hi.producer_le_max
  reservations := hi.reservations
  reservation_ops := hi.reservation_ops
  reservation_current r hr := by
    obtain ⟨hv, hc⟩ := hi.reservation_current r hr
    refine ⟨hv, ?_⟩
    by_cases hk : r.op = k
    · simp only [State.setOp_ops, hk, Function.update_self]
      exact hcur _ _ (hk ▸ hc)
    · simpa [Function.update_of_ne hk] using hc
  claims := hi.claims
  claim_ops := hi.claim_ops
  claim_current x hx := by
    have hc := hi.claim_current x hx
    by_cases hk : x.2 = k
    · simp only [State.setOp_ops, hk, Function.update_self]
      exact hclaimed _ (hk ▸ hc)
    · simpa [Function.update_of_ne hk] using hc
  window q h1 h2 h3 := (hi.window q h1 h2 h3).transfer rfl Iff.rfl (ProducerOwns_setOp hres q)
    (ConsumerOwns_setOp hcl q) fun _ h => h
  fresh := hi.fresh
  ops k' := by
    by_cases hk : k' = k
    · subst hk
      simpa using hop
    · simpa [Function.update_of_ne hk] using hi.ops k'

theorem ProducerOwns_setOp_of_ne {k : Nat} {o : Op} {q : Nat} (hnew : o.reserved? ≠ some q)
    (hold : (s.ops k).reserved? ≠ some q) : ProducerOwns (s.setOp k o) q ↔ ProducerOwns s q := by
  constructor
  · rintro ⟨k', hk'⟩
    by_cases hkk : k' = k
    · subst hkk
      simp only [State.setOp_ops, Function.update_self] at hk'
      exact absurd hk' hnew
    · exact ⟨k', by simpa [Function.update_of_ne hkk] using hk'⟩
  · rintro ⟨k', hk'⟩
    by_cases hkk : k' = k
    · subst hkk
      exact absurd hk' hold
    · exact ⟨k', by simpa [Function.update_of_ne hkk] using hk'⟩

theorem ConsumerOwns_setOp_of_ne {k : Nat} {o : Op} {q : Nat} (hnew : o.claimed? ≠ some q)
    (hold : (s.ops k).claimed? ≠ some q) : ConsumerOwns (s.setOp k o) q ↔ ConsumerOwns s q := by
  constructor
  · rintro ⟨k', hk'⟩
    by_cases hkk : k' = k
    · subst hkk
      simp only [State.setOp_ops, Function.update_self] at hk'
      exact absurd hk' hnew
    · exact ⟨k', by simpa [Function.update_of_ne hkk] using hk'⟩
  · rintro ⟨k', hk'⟩
    by_cases hkk : k' = k
    · subst hkk
      exact absurd hk' hold
    · exact ⟨k', by simpa [Function.update_of_ne hkk] using hk'⟩

/-- What an operation knows survives a write to one slot, given what it knows of that slot. -/
theorem OpInv.setSlot {k : Nat} {o : Op} (h : OpInv g s k o) {i : Nat} {x : Slot}
    (hcas : ∀ m a p, o = .reserve_cas m a p → s.producer_position = p → slot_index g p = i →
      x.sequence = encode_sequence p .reusable)
    (hpoll : ∀ a c, o = .poll_cas a c → s.consumer_position = c → slot_index g c = i →
      x.sequence = encode_sequence c .published)
    (hstore : ∀ m p, o = .publish_store m p → slot_index g p = i → x.Holds m) :
    OpInv g (s.setSlot i x) k o := by
  cases o with
  | reserve_cas m a p =>
    refine ⟨h.1, h.2.1, h.2.2.1, fun hP => ?_⟩
    by_cases hidx : slot_index g p = i
    · simpa [hidx] using hcas m a p rfl hP hidx
    · simpa [Function.update_of_ne hidx] using h.2.2.2 hP
  | poll_cas a c =>
    refine ⟨h.1, fun hC => ?_⟩
    by_cases hidx : slot_index g c = i
    · simpa [hidx] using hpoll a c rfl hC hidx
    · simpa [Function.update_of_ne hidx] using h.2 hC
  | publish_store m p =>
    refine ⟨h.1, h.2.1, ?_⟩
    by_cases hidx : slot_index g p = i
    · simpa [hidx] using hstore m p rfl hidx
    · simpa [Function.update_of_ne hidx] using h.2.2
  | _ => exact h

/-- A program point outside every ownership: before a winning CAS, or a `post_send` that gave
up. -/
def Op.unowned : Op → Bool
  | .none | .reserve .. | .reserve_seq .. | .reserve_check .. | .reserve_cas .. | .poll _
  | .poll_seq .. | .poll_check .. | .poll_cas .. | .polled_none => true
  | .sent _ r => r != .done
  | _ => false

theorem Op.unowned_spec {o : Op} (h : o.unowned = true) :
    o.reserved? = Option.none ∧ o.claimed? = Option.none ∧ (∀ p m, ¬ o.Reserved p m) ∧
      ∀ c, ¬ o.Claimed c := by
  cases o <;> simp_all [Op.unowned, Op.reserved?, Op.claimed?, Op.Reserved, Op.Claimed]

/-- A step of an operation outside every ownership to another such program point. -/
theorem Inv.setOp_unowned (hi : Inv g s) {k : Nat} {o : Op} (hold : (s.ops k).unowned = true)
    (hnew : o.unowned = true) (hop : OpInv g s k o) : Inv g (s.setOp k o) := by
  obtain ⟨hr, hc, hR, hC⟩ := Op.unowned_spec hold
  obtain ⟨hr', hc', -, -⟩ := Op.unowned_spec hnew
  exact hi.setOp (hr'.trans hr.symm) (hc'.trans hc.symm) (fun p m h => absurd h (hR p m))
    (fun c h => absurd h (hC c)) hop

/-! ### The winning CASes -/

theorem OpInv.reserve_frame {k k' : Nat} {o : Op} (h : OpInv g s k' o) {m : Msg} {p : Nat}
    (hp : s.producer_position = p)
    (hcons : ∀ c, o.claimed? = some c → s.producer_position < c + g.slot_count) :
    OpInv g (s.reserve k m p) k' o := by
  have hmono : ∀ r ∈ s.reservations, r ∈ (s.reserve k m p).reservations :=
    fun r hr => List.mem_append_left _ hr
  cases o with
  | reserve_seq m' a p' =>
    obtain ⟨hv, hle, hmax⟩ := h
    exact ⟨hv, by simp only [State.reserve_producer_position]; omega, hmax⟩
  | reserve_check m' a p' sq =>
    obtain ⟨hv, hle, -⟩ := h
    exact ⟨hv, by simp only [State.reserve_producer_position]; omega,
      fun hP => by simp only [State.reserve_producer_position] at hP; omega⟩
  | reserve_cas m' a p' =>
    obtain ⟨hv, hle, hmax, -⟩ := h
    exact ⟨hv, by simp only [State.reserve_producer_position]; omega, hmax,
      fun hP => by simp only [State.reserve_producer_position] at hP; omega⟩
  | publish_check m' p' => exact ⟨h.1, hmono _ h.2⟩
  | publish_write m' p' => exact ⟨h.1, hmono _ h.2⟩
  | publish_store m' p' => exact ⟨h.1, hmono _ h.2.1, h.2.2⟩
  | sent m' r =>
    exact fun hr => (h hr).imp id fun hle => by
      simp only [State.reserve_producer_position]; omega
  | claimed c =>
    have := hcons c rfl
    exact ⟨h.1, by simp only [State.reserve_producer_position]; omega⟩
  | holding v | release_check v | release_store v =>
    obtain ⟨hc, -, r, hr, hrp, hfit⟩ := h
    have := hcons v.position rfl
    exact ⟨hc, by simp only [State.reserve_producer_position]; omega, r, hmono r hr, hrp, hfit⟩
  | _ => exact h

/-- The winning producer CAS keeps the invariant: the slot was free for the position, so the
ring was not full and no consumer held the slot. -/
theorem Inv.reserve (hi : Inv g s) {k : Nat} {m : Msg} {a p : Nat}
    (ho : s.ops k = .reserve_cas m a p) (hP : s.producer_position = p) :
    Inv g (s.reserve k m p) := by
  have hk := hi.ops k
  rw [ho] at hk
  obtain ⟨hvalid, -, hmax, hfree⟩ := hk
  have hfree := hfree hP
  obtain ⟨hnotfull, hcons⟩ := hi.producer_free (hP ▸ hfree)
  have hnotres : ∀ r ∈ s.reservations, r.op ≠ k := by
    intro r hr hrk
    have := (hi.reservation_current r hr).2
    rw [hrk, ho] at this
    exact this
  have hnotcl : ∀ x ∈ s.claims, x.2 ≠ k := by
    intro x hx hxk
    have := hi.claim_current x hx
    rw [hxk, ho] at this
    simp [Op.Claimed, Op.claimed?] at this
  have hown : ∀ q, q ≠ p → (ProducerOwns (s.reserve k m p) q ↔ ProducerOwns s q) := fun q hq =>
    ProducerOwns_setOp_of_ne (s := s) (k := k) (o := .publish_check m p)
      (by simp [Op.reserved?, Ne.symm hq]) (by simp [ho, Op.reserved?])
  have hcown : ∀ q, ConsumerOwns (s.reserve k m p) q ↔ ConsumerOwns s q := fun q =>
    ConsumerOwns_setOp (s := s) (k := k) (o := .publish_check m p) (by simp [ho, Op.claimed?]) q
  have hP0 : g.initial_position ≤ p := by have := hi.initial_le; have := hi.consumer_le; omega
  have hCp : s.consumer_position ≤ p := hP ▸ hi.consumer_le
  refine ⟨hi.initial_le, ?_, ?_, ?_, ?_, ?_, ?_, hi.claims, hi.claim_ops, ?_, ?_, ?_, ?_⟩
  · simp only [State.reserve_consumer_position, State.reserve_producer_position]
    omega
  · simp only [State.reserve_consumer_position, State.reserve_producer_position]
    omega
  · simp only [State.reserve_producer_position]
    omega
  · simp only [State.reserve_reservations, List.map_append, hi.reservations, List.map_cons,
      List.map_nil, State.reserve_producer_position, hP]
    rw [show p + 1 - g.initial_position = (p - g.initial_position) + 1 by omega, List.range'_concat]
    simp only [Nat.one_mul]
    congr 2
    omega
  · simp only [State.reserve_reservations, List.map_append, List.map_cons, List.map_nil]
    refine List.nodup_append.mpr ⟨hi.reservation_ops, List.nodup_singleton k, ?_⟩
    intro x hx y hy
    simp only [List.mem_map, List.mem_singleton] at hx hy
    obtain ⟨r, hr, rfl⟩ := hx
    rw [hy]
    exact hnotres r hr
  · intro r hr
    simp only [State.reserve_reservations, List.mem_append, List.mem_singleton] at hr
    rcases hr with hr | rfl
    · refine ⟨(hi.reservation_current r hr).1, ?_⟩
      simpa [Function.update_of_ne (hnotres r hr)] using (hi.reservation_current r hr).2
    · exact ⟨hvalid, by simp [Op.Reserved]⟩
  · intro x hx
    simpa [Function.update_of_ne (hnotcl x hx)] using hi.claim_current x hx
  · intro q h1 h2 h3
    simp only [State.reserve_producer_position] at h2 h3
    by_cases hq : q = p
    · subst hq
      have hown_p : ProducerOwns (s.reserve k m q) q := ⟨k, by simp [Op.reserved?]⟩
      refine ⟨fun _ _ => by simpa using hfree, fun _ hn => absurd hown_p hn,
        fun hlt => ?_, fun hlt => ?_⟩
      all_goals (simp only [State.reserve_consumer_position] at hlt; omega)
    · exact (hi.window q h1 (by omega) (by omega)).transfer rfl Iff.rfl (hown q hq) (hcown q)
        fun r hr => List.mem_append_left _ hr
  · intro q h1 h2
    simp only [State.reserve_producer_position, State.reserve_slots] at h1 ⊢
    exact hi.fresh q (by omega) h2
  · intro k'
    by_cases hkk : k' = k
    · subst hkk
      simp only [State.reserve_ops, Function.update_self]
      exact ⟨hCp, List.mem_append_right _ (List.mem_singleton_self _)⟩
    · have := (hi.ops k').reserve_frame (k := k) (m := m) hP fun c hc => hcons k' c hc
      simpa [Function.update_of_ne hkk] using this

theorem OpInv.claim_frame {k k' : Nat} {o : Op} (h : OpInv g s k' o) {c : Nat}
    (hc : s.consumer_position = c) (hprod : ∀ p, o.reserved? = some p → p ≠ c) :
    OpInv g (s.claim k c) k' o := by
  have hmono : ∀ x ∈ s.claims, x ∈ (s.claim k c).claims := fun x hx => List.mem_append_left _ hx
  cases o with
  | poll_seq a c' =>
    have hle : c' ≤ s.consumer_position := h
    show c' ≤ (s.claim k c).consumer_position
    simp only [State.claim_consumer_position]
    omega
  | poll_check a c' sq =>
    obtain ⟨hle, -⟩ := h
    exact ⟨by simp only [State.claim_consumer_position]; omega,
      fun hC => by simp only [State.claim_consumer_position] at hC; omega⟩
  | poll_cas a c' =>
    obtain ⟨hle, -⟩ := h
    exact ⟨by simp only [State.claim_consumer_position]; omega,
      fun hC => by simp only [State.claim_consumer_position] at hC; omega⟩
  | publish_check m p =>
    have := hprod p rfl
    have hle : s.consumer_position ≤ p := h.1
    exact ⟨by simp only [State.claim_consumer_position]; omega, h.2⟩
  | publish_write m p =>
    have := hprod p rfl
    have hle : s.consumer_position ≤ p := h.1
    exact ⟨by simp only [State.claim_consumer_position]; omega, h.2⟩
  | publish_store m p =>
    have := hprod p rfl
    have hle : s.consumer_position ≤ p := h.1
    exact ⟨by simp only [State.claim_consumer_position]; omega, h.2.1, h.2.2⟩
  | claimed c' => exact ⟨hmono _ h.1, h.2⟩
  | holding v | release_check v | release_store v =>
    obtain ⟨hc', hP, rest⟩ := h
    exact ⟨hmono _ hc', hP, rest⟩
  | _ => exact h

/-- The winning consumer CAS keeps the invariant: the slot was published for the position, so
the position was reserved, no producer owned it and its slot holds its message. -/
theorem Inv.claim (hi : Inv g s) {k a c : Nat} (ho : s.ops k = .poll_cas a c)
    (hC : s.consumer_position = c) : Inv g (s.claim k c) := by
  have hk := hi.ops k
  rw [ho] at hk
  have hpub := hk.2 hC
  obtain ⟨hlt, hnotown⟩ := hi.consumer_published (hC ▸ hpub)
  rw [hC] at hlt hnotown
  have hnotres : ∀ r ∈ s.reservations, r.op ≠ k := by
    intro r hr hrk
    have := (hi.reservation_current r hr).2
    rw [hrk, ho] at this
    exact this
  have hnotcl : ∀ x ∈ s.claims, x.2 ≠ k := by
    intro x hx hxk
    have := hi.claim_current x hx
    rw [hxk, ho] at this
    simp [Op.Claimed, Op.claimed?] at this
  have hown : ∀ q, ProducerOwns (s.claim k c) q ↔ ProducerOwns s q := fun q =>
    ProducerOwns_setOp (s := s) (k := k) (o := .claimed c) (by simp [ho, Op.reserved?]) q
  have hcown : ∀ q, q ≠ c → (ConsumerOwns (s.claim k c) q ↔ ConsumerOwns s q) := fun q hq =>
    ConsumerOwns_setOp_of_ne (s := s) (k := k) (o := .claimed c)
      (by simp [Op.claimed?, Ne.symm hq]) (by simp [ho, Op.claimed?])
  have hP0 : g.initial_position ≤ c := hC ▸ hi.initial_le
  have hq := hi.window c hP0 hlt (by have := hi.producer_le; omega)
  obtain ⟨-, hholds⟩ := hq.published (by omega) hnotown
  refine ⟨?_, ?_, ?_, hi.producer_le_max, hi.reservations, hi.reservation_ops, ?_, ?_, ?_, ?_, ?_,
    hi.fresh, ?_⟩
  · simp only [State.claim_consumer_position]
    omega
  · simp only [State.claim_consumer_position, State.claim_producer_position]
    omega
  · simp only [State.claim_consumer_position, State.claim_producer_position]
    have := hi.producer_le
    omega
  · intro r hr
    refine ⟨(hi.reservation_current r hr).1, ?_⟩
    simpa [Function.update_of_ne (hnotres r hr)] using (hi.reservation_current r hr).2
  · simp only [State.claim_claims, List.map_append, hi.claims, List.map_cons, List.map_nil,
      State.claim_consumer_position, hC]
    rw [show c + 1 - g.initial_position = (c - g.initial_position) + 1 by omega,
      List.range'_concat]
    simp only [Nat.one_mul]
    congr 2
    omega
  · simp only [State.claim_claims, List.map_append, List.map_cons, List.map_nil]
    refine List.nodup_append.mpr ⟨hi.claim_ops, List.nodup_singleton k, ?_⟩
    intro x hx y hy
    simp only [List.mem_map, List.mem_singleton] at hx hy
    obtain ⟨z, hz, rfl⟩ := hx
    rw [hy]
    exact hnotcl z hz
  · intro x hx
    simp only [State.claim_claims, List.mem_append, List.mem_singleton] at hx
    rcases hx with hx | rfl
    · simpa [Function.update_of_ne (hnotcl x hx)] using hi.claim_current x hx
    · simp [Op.Claimed, Op.claimed?]
  · intro q h1 h2 h3
    by_cases hq' : q = c
    · subst hq'
      have hown_c : ConsumerOwns (s.claim k q) q := ⟨k, by simp [Op.claimed?]⟩
      refine ⟨fun h => by simp at h, fun h => by simp at h, fun _ _ => ⟨by simpa using hpub, ?_⟩,
        fun _ hn => absurd hown_c hn⟩
      exact hholds.mono (by simp) (fun r hr => hr)
    · refine (hi.window q h1 h2 h3).transfer (by simp) ?_ (hown q) (hcown q hq') fun r hr => hr
      simp only [State.claim_consumer_position]
      omega
  · intro k'
    by_cases hkk : k' = k
    · subst hkk
      simp only [State.claim_ops, Function.update_self]
      exact ⟨List.mem_append_right _ (List.mem_singleton_self _), by
        simp only [State.claim_producer_position]; have := hi.producer_le; omega⟩
    · have := (hi.ops k').claim_frame (k := k) hC fun p hp hpc => hnotown ⟨k', hpc ▸ hp⟩
      simpa [Function.update_of_ne hkk] using this

/-! ### The slot writes -/

theorem Slot.write_holds (sl : Slot) (m : Msg) : (sl.write m).Holds m := by
  refine ⟨rfl, rfl, rfl, ?_⟩
  simp only [Slot.write]
  split
  · exact List.take_left' rfl
  · rename_i h
    rw [not_not.mp h, List.take_zero, List.eq_nil_of_length_eq_zero (not_not.mp h)]

theorem Slot.store_holds {sl : Slot} {m : Msg} (h : sl.Holds m) (sequence : Nat) :
    (sl.store sequence).Holds m := h

/-- Two owned positions, or an owned one and a position of the current generation, with the same
slot are the same position. -/
theorem eq_of_window {P p q : Nat} (hidx : slot_index g q = slot_index g p)
    (hp : p < P ∧ P ≤ p + g.slot_count) (hq : q < P ∧ P ≤ q + g.slot_count) : q = p :=
  eq_of_slot_index_eq g hidx (by omega) (by omega)

/-- `publish`'s header and payload writes keep the invariant: the slot is the writer's own. -/
theorem Inv.publish_write (hi : Inv g s) {k : Nat} {m : Msg} {p : Nat}
    (ho : s.ops k = .publish_write m p) :
    Inv g ((s.setOp k (.publish_store m p)).setSlot (slot_index g p)
      ((s.slots (slot_index g p)).write m)) := by
  have hk := hi.ops k
  rw [ho] at hk
  obtain ⟨hCp, hmem⟩ := hk
  have hres : (s.ops k).reserved? = some p := by rw [ho]; rfl
  obtain ⟨-, -, hpP, hPp⟩ := hi.producer_owned hres
  have hseq : ∀ j, (Function.update s.slots (slot_index g p)
      ((s.slots (slot_index g p)).write m) j).sequence = (s.slots j).sequence := by
    intro j
    by_cases hj : j = slot_index g p
    · subst hj; simp
    · simp [Function.update_of_ne hj]
  have hown : ∀ q, ProducerOwns (s.setOp k (.publish_store m p)) q ↔ ProducerOwns s q :=
    ProducerOwns_setOp (by rw [ho]; rfl)
  have hcown : ∀ q, ConsumerOwns (s.setOp k (.publish_store m p)) q ↔ ConsumerOwns s q :=
    ConsumerOwns_setOp (by rw [ho]; rfl)
  refine ⟨hi.initial_le, hi.consumer_le, hi.producer_le, hi.producer_le_max, hi.reservations,
    hi.reservation_ops, ?_, hi.claims, hi.claim_ops, ?_, ?_, ?_, ?_⟩
  · intro r hr
    refine ⟨(hi.reservation_current r hr).1, ?_⟩
    have hc := (hi.reservation_current r hr).2
    by_cases hrk : r.op = k
    · rw [hrk, ho] at hc
      simpa [hrk, Op.Reserved] using hc
    · simpa [Function.update_of_ne hrk] using hc
  · intro x hx
    have hc := hi.claim_current x hx
    have hxk : x.2 ≠ k := by
      intro hxk
      rw [hxk, ho] at hc
      simp [Op.Claimed, Op.claimed?] at hc
    simpa [Function.update_of_ne hxk] using hc
  · intro q h1 h2 h3
    by_cases hidx : slot_index g q = slot_index g p
    · obtain rfl := eq_of_window hidx ⟨hpP, hPp⟩ ⟨h2, h3⟩
      refine ⟨fun _ _ => ?_, fun _ hn => absurd ((hown q).mpr ⟨k, hres⟩) hn,
        fun hlt => by simp at hlt; omega, fun hlt => by simp at hlt; omega⟩
      simpa [hseq] using hi.seq_of_reserved hres
    · exact (hi.window q h1 h2 h3).transfer (by simp [Function.update_of_ne hidx]) Iff.rfl
        (hown q) (hcown q) fun r hr => hr
  · intro q h1 h2
    simpa [hseq] using hi.fresh q h1 h2
  · intro k'
    by_cases hkk : k' = k
    · subst hkk
      simp only [State.setSlot_ops, State.setOp_ops, Function.update_self]
      refine ⟨hCp, hmem, ?_⟩
      simpa using Slot.write_holds (s.slots (slot_index g p)) m
    · have hk' := hi.ops k'
      have := (show OpInv g (s.setOp k (.publish_store m p)) k' (s.ops k') from hk').setSlot
        (i := slot_index g p) (x := (s.slots (slot_index g p)).write m)
        (fun m' a p' hop hP hidx => by
          have := hk'
          rw [hop] at this
          simpa [← hidx] using this.2.2.2 hP)
        (fun a c hop hC hidx => by
          have := hk'
          rw [hop] at this
          simpa [← hidx] using this.2 hC)
        (fun m' p' hop hidx => by
          have hres' : (s.ops k').reserved? = some p' := by rw [hop]; rfl
          obtain ⟨-, -, h2, h3⟩ := hi.producer_owned hres'
          obtain rfl := eq_of_window hidx ⟨hpP, hPp⟩ ⟨h2, h3⟩
          exact absurd (hi.producer_owner_unique hres' hres) hkk)
      simpa [Function.update_of_ne hkk] using this

/-- `publish`'s release store keeps the invariant: the position becomes published with the
message the writer put in its own slot. -/
theorem Inv.publish_store (hi : Inv g s) {k : Nat} {m : Msg} {p : Nat}
    (ho : s.ops k = .publish_store m p) :
    Inv g ((s.setOp k (.sent m .done)).setSlot (slot_index g p)
      ((s.slots (slot_index g p)).store (encode_sequence p .published))) := by
  have hk := hi.ops k
  rw [ho] at hk
  obtain ⟨hCp, hmem, hholds⟩ := hk
  have hres : (s.ops k).reserved? = some p := by rw [ho]; rfl
  obtain ⟨hP0, -, hpP, hPp⟩ := hi.producer_owned hres
  have hseqp := hi.seq_of_reserved hres
  have hown : ∀ q, q ≠ p → (ProducerOwns (s.setOp k (.sent m .done)) q ↔ ProducerOwns s q) :=
    fun q hq => ProducerOwns_setOp_of_ne (by simp [Op.reserved?])
      (by rw [hres]; simpa using Ne.symm hq)
  have hcown : ∀ q, ConsumerOwns (s.setOp k (.sent m .done)) q ↔ ConsumerOwns s q :=
    ConsumerOwns_setOp (by rw [ho]; rfl)
  have hnotown : ¬ ProducerOwns (s.setOp k (.sent m .done)) p := by
    rintro ⟨k', hk'⟩
    by_cases hkk : k' = k
    · subst hkk
      simp [Op.reserved?] at hk'
    · rw [State.setOp_ops, Function.update_of_ne hkk] at hk'
      exact hkk (hi.producer_owner_unique hk' hres)
  refine ⟨hi.initial_le, hi.consumer_le, hi.producer_le, hi.producer_le_max, hi.reservations,
    hi.reservation_ops, ?_, hi.claims, hi.claim_ops, ?_, ?_, ?_, ?_⟩
  · intro r hr
    refine ⟨(hi.reservation_current r hr).1, ?_⟩
    have hc := (hi.reservation_current r hr).2
    by_cases hrk : r.op = k
    · rw [hrk, ho] at hc
      simpa [hrk, Op.Reserved] using hc.1
    · simpa [Function.update_of_ne hrk] using hc
  · intro x hx
    have hc := hi.claim_current x hx
    have hxk : x.2 ≠ k := by
      intro hxk
      rw [hxk, ho] at hc
      simp [Op.Claimed, Op.claimed?] at hc
    simpa [Function.update_of_ne hxk] using hc
  · intro q h1 h2 h3
    by_cases hidx : slot_index g q = slot_index g p
    · obtain rfl := eq_of_window hidx ⟨hpP, hPp⟩ ⟨h2, h3⟩
      refine ⟨fun _ ho' => absurd ho' hnotown, fun _ _ => ⟨by simp, ?_⟩,
        fun hlt => by simp at hlt; omega, fun hlt => by simp at hlt; omega⟩
      exact ⟨⟨q, k, m⟩, hmem, rfl, by simpa using Slot.store_holds hholds _⟩
    · have hqp : q ≠ p := fun h => hidx (h ▸ rfl)
      exact (hi.window q h1 h2 h3).transfer (by simp [Function.update_of_ne hidx]) Iff.rfl
        (hown q hqp) (hcown q) fun r hr => hr
  · intro q h1 h2
    simp only [State.setSlot_producer_position, State.setOp_producer_position] at h1
    have hidx : slot_index g q ≠ slot_index g p := fun hidx =>
      absurd (eq_of_slot_index_eq g hidx (by omega) (by omega)) (by omega)
    simpa [Function.update_of_ne hidx] using hi.fresh q h1 h2
  · intro k'
    by_cases hkk : k' = k
    · subst hkk
      simp only [State.setSlot_ops, State.setOp_ops, Function.update_self]
      exact fun h => by cases h
    · have hk' := hi.ops k'
      have := (show OpInv g (s.setOp k (.sent m .done)) k' (s.ops k') from hk').setSlot
        (i := slot_index g p)
        (x := (s.slots (slot_index g p)).store (encode_sequence p .published))
        (fun m' a p' hop hP hidx => by
          -- the loaded head would be in the writer's slot, which is not free for it
          have := hk'
          rw [hop] at this
          have hfree := this.2.2.2 hP
          rw [hidx, hseqp] at hfree
          simp only [State.setOp_producer_position] at hP
          simp only [encode_sequence_inj, and_true] at hfree
          omega)
        (fun a c hop hC hidx => by
          have := hk'
          rw [hop] at this
          have hpub := this.2 hC
          rw [hidx, hseqp] at hpub
          simp at hpub)
        (fun m' p' hop hidx => by
          have hres' : (s.ops k').reserved? = some p' := by rw [hop]; rfl
          obtain ⟨-, -, h2, h3⟩ := hi.producer_owned hres'
          obtain rfl := eq_of_window hidx ⟨hpP, hPp⟩ ⟨h2, h3⟩
          exact absurd (hi.producer_owner_unique hres' hres) hkk)
      simpa [Function.update_of_ne hkk] using this

@[simp] theorem ProducerOwns_free {c q : Nat} :
    ProducerOwns (s.free g c) q ↔ ProducerOwns s q := by
  simp [ProducerOwns]

@[simp] theorem ConsumerOwns_free {c q : Nat} :
    ConsumerOwns (s.free g c) q ↔ ConsumerOwns s q := by
  simp [ConsumerOwns]

theorem State.free_sequence {c : Nat}
    (h : (s.slots (slot_index g c)).sequence = encode_sequence c .published) :
    ((s.free g c).slots (slot_index g c)).sequence = released_sequence g c := by
  unfold State.free released_sequence
  split <;> simp [h]

/-- `release`'s store keeps the invariant: the consumer frees its own slot for the next
generation, which no producer can have loaded as free before. -/
theorem Inv.release_store (hi : Inv g s) {k : Nat} {v : View} (ho : s.ops k = .release_store v) :
    Inv g ((s.setOp k .released).free g v.position) := by
  have hcl : (s.ops k).claimed? = some v.position := by rw [ho]; rfl
  obtain ⟨hP0, hcC, hcP, hPc⟩ := hi.consumer_owned hcl
  have hseqc := (hi.seq_of_claimed hcl).1
  have hown : ∀ q, ProducerOwns (s.setOp k .released) q ↔ ProducerOwns s q :=
    ProducerOwns_setOp (by rw [ho]; rfl)
  have hcown : ∀ q, q ≠ v.position →
      (ConsumerOwns (s.setOp k .released) q ↔ ConsumerOwns s q) := fun q hq =>
    ConsumerOwns_setOp_of_ne (by simp [Op.claimed?]) (by rw [hcl]; simpa using Ne.symm hq)
  have hnotown : ¬ ConsumerOwns (s.setOp k .released) v.position := by
    rintro ⟨k', hk'⟩
    by_cases hkk : k' = k
    · subst hkk
      simp [Op.claimed?] at hk'
    · rw [State.setOp_ops, Function.update_of_ne hkk] at hk'
      exact hkk (hi.consumer_owner_unique hk' hcl)
  have hslots : ∀ j, j ≠ slot_index g v.position →
      ((s.setOp k .released).free g v.position).slots j = s.slots j := fun j hj =>
    State.free_slots_of_ne g _ _ hj
  have hfreed : (((s.setOp k .released).free g v.position).slots
      (slot_index g v.position)).sequence = released_sequence g v.position :=
    State.free_sequence hseqc
  refine ⟨by simpa using hi.initial_le, by simpa using hi.consumer_le, by simpa using hi.producer_le,
    by simpa using hi.producer_le_max, by simpa using hi.reservations,
    by simpa using hi.reservation_ops, ?_, by simpa using hi.claims, by simpa using hi.claim_ops,
    ?_, ?_, ?_, ?_⟩
  · intro r hr
    simp only [State.free_reservations, State.setOp_reservations] at hr
    refine ⟨(hi.reservation_current r hr).1, ?_⟩
    have hc := (hi.reservation_current r hr).2
    have hrk : r.op ≠ k := by
      intro hrk
      rw [hrk, ho] at hc
      exact hc
    simpa [Function.update_of_ne hrk] using hc
  · intro x hx
    simp only [State.free_claims, State.setOp_claims] at hx
    by_cases hxk : x.2 = k
    · simp [hxk, Op.Claimed]
    · simpa [Function.update_of_ne hxk] using hi.claim_current x hx
  · intro q h1 h2 h3
    simp only [State.free_producer_position, State.setOp_producer_position] at h2 h3
    by_cases hidx : slot_index g q = slot_index g v.position
    · obtain rfl := eq_of_window hidx ⟨hcP, hPc⟩ ⟨h2, h3⟩
      refine ⟨fun h => by simp at h; omega, fun h => by simp at h; omega,
        fun _ ho' => absurd (ConsumerOwns_free.mp ho') hnotown, fun _ _ => hfreed⟩
    · have hqc : q ≠ v.position := fun h => hidx (h ▸ rfl)
      refine (hi.window q h1 h2 h3).transfer (hslots _ hidx) (by simp) (by simpa using hown q)
        (by simpa using hcown q hqc) fun r hr => by simpa using hr
  · intro q h1 h2
    simp only [State.free_producer_position, State.setOp_producer_position] at h1
    have hidx : slot_index g q ≠ slot_index g v.position := fun hidx =>
      absurd (eq_of_slot_index_eq g hidx (by omega) (by omega)) (by omega)
    rw [hslots _ hidx]
    exact hi.fresh q h1 h2
  · intro k'
    by_cases hkk : k' = k
    · subst hkk
      simp only [State.free_ops, State.setOp_ops, Function.update_self]
      trivial
    · have hk' := hi.ops k'
      rw [State.free_eq_setSlot]
      have := (show OpInv g (s.setOp k .released) k' (s.ops k') from hk').setSlot
        (i := slot_index g v.position)
        (x := ((s.setOp k .released).free g v.position).slots (slot_index g v.position))
        (fun m a p hop hP hidx => by
          have := hk'
          rw [hop] at this
          obtain ⟨-, -, hpmax, -⟩ := this
          simp only [State.setOp_producer_position] at hP
          have hp : p = v.position + g.slot_count := by
            by_contra hne
            exact absurd (eq_of_slot_index_eq g hidx (by omega) (by omega)) (by omega)
          rw [hfreed, released_sequence, if_pos (by omega), hp])
        (fun a c hop hC hidx => by
          have := hk'
          rw [hop] at this
          have hpub := this.2 hC
          rw [hidx, hseqc] at hpub
          simp only [State.setOp_consumer_position] at hC
          simp only [encode_sequence_inj, and_true] at hpub
          omega)
        (fun m p hop hidx => by
          have hres' : (s.ops k').reserved? = some p := by rw [hop]; rfl
          obtain ⟨-, hCp, h2, h3⟩ := hi.producer_owned hres'
          have := eq_of_slot_index_eq g hidx (by omega) (by omega)
          omega)
      simpa [Function.update_of_ne hkk] using this

/-! ### Every step -/

/-- Every atomic step of an operation keeps the invariant. The branches that would throw or
return `fatal` below the last position contradict what the operation knows. -/
theorem Inv.of_run (hi : Inv g s) {k : Nat} {spurious : Bool} {s' : State}
    (h : run g s k spurious (s.ops k) = some s') : Inv g s' := by
  have hk := hi.ops k
  cases ho : s.ops k with
  | reserve m attempt =>
    rw [ho] at h hk
    simp only [run] at h
    split_ifs at h with ha hmax <;> cases h
    · exact hi.setOp_unowned (by rw [ho]; rfl) rfl fun _ => .inr hmax
    · exact hi.setOp_unowned (by rw [ho]; rfl) rfl ⟨hk, le_rfl, by omega⟩
    · exact hi.setOp_unowned (by rw [ho]; rfl) rfl fun h => by cases h
  | reserve_seq m attempt p =>
    rw [ho] at h hk
    obtain ⟨hv, hp, hmax⟩ := hk
    simp only [run] at h
    split_ifs at h with hseq <;> cases h
    · -- not free: at a stable head the word is of the previous generation
      refine hi.setOp_unowned (by rw [ho]; rfl) rfl ⟨hv, hp, fun hP => ?_⟩
      subst hP
      exact hi.producer_head.resolve_left hseq
    · exact hi.setOp_unowned (by rw [ho]; rfl) rfl ⟨hv, hp, hmax, fun _ => not_not.mp hseq⟩
  | reserve_check m attempt p sq =>
    rw [ho] at h hk
    obtain ⟨hv, -, hprev⟩ := hk
    simp only [run] at h
    split_ifs at h with hP hgen <;> cases h
    · exact hi.setOp_unowned (by rw [ho]; rfl) rfl hv
    · exact hi.setOp_unowned (by rw [ho]; rfl) rfl fun h => by cases h
    · exact absurd (hprev (not_not.mp hP)) hgen
  | reserve_cas m attempt p =>
    rw [ho] at h hk
    simp only [run] at h
    split_ifs at h with hcas <;> cases h
    · exact hi.reserve ho hcas.1
    · exact hi.setOp_unowned (by rw [ho]; rfl) rfl hk.1
  | publish_check m p =>
    rw [ho] at h hk
    simp only [run] at h
    split_ifs at h with hseq <;> cases h
    · exact absurd (hi.seq_of_reserved (k := k) (by rw [ho]; rfl)) hseq
    · exact hi.setOp (by rw [ho]; rfl) (by rw [ho]; rfl) (fun p' m' h => by rw [ho] at h; exact h)
        (fun c h => by rw [ho] at h; exact h) hk
  | publish_write m p =>
    rw [ho] at h
    simp only [run, Option.some.injEq] at h
    subst h
    exact hi.publish_write ho
  | publish_store m p =>
    rw [ho] at h
    simp only [run, Option.some.injEq] at h
    subst h
    exact hi.publish_store ho
  | poll attempt =>
    rw [ho] at h
    simp only [run] at h
    split_ifs at h <;> cases h
    · exact hi.setOp_unowned (by rw [ho]; rfl) rfl (le_refl s.consumer_position)
    · exact hi.setOp_unowned (by rw [ho]; rfl) rfl trivial
  | poll_seq attempt c =>
    rw [ho] at h hk
    simp only [run] at h
    split_ifs at h with hseq <;> cases h
    · -- not published: at a stable head the slot is empty or not yet released
      refine hi.setOp_unowned (by rw [ho]; rfl) rfl ⟨hk, fun hC => ?_⟩
      subst hC
      exact hi.consumer_head.resolve_left hseq
    · exact hi.setOp_unowned (by rw [ho]; rfl) rfl ⟨hk, fun _ => not_not.mp hseq⟩
  | poll_check attempt c sq =>
    rw [ho] at h hk
    obtain ⟨-, hlegal⟩ := hk
    simp only [run] at h
    split_ifs at h with hC hok <;> cases h
    · exact hi.setOp_unowned (by rw [ho]; rfl) rfl trivial
    · exact hi.setOp_unowned (by rw [ho]; rfl) rfl trivial
    · exact absurd (hlegal (not_not.mp hC)) hok
  | poll_cas attempt c =>
    rw [ho] at h hk
    simp only [run] at h
    split_ifs at h with hcas <;> cases h
    · exact hi.claim ho hcas.1
    · exact hi.setOp_unowned (by rw [ho]; rfl) rfl trivial
  | claimed c =>
    rw [ho] at h hk
    have hcl : (s.ops k).claimed? = some c := by rw [ho]; rfl
    obtain ⟨-, r, hr, rfl, hholds⟩ := hi.seq_of_claimed hcl
    obtain ⟨hsize, himm, hrank, -⟩ := hholds
    obtain ⟨hrank', hsize'⟩ := (hi.reservation_current r hr).1
    simp only [run] at h
    split_ifs at h with hbad <;> cases h
    · -- the header holds a message `post_send` accepted
      omega
    · exact hi.setOp (by rw [ho]; rfl) (by rw [ho]; rfl) (fun p m h => by rw [ho] at h; exact h)
        (fun c' h => by rw [ho] at h; exact h) ⟨hk.1, hk.2, r, hr, rfl, hrank, himm, hsize⟩
  | release_check v =>
    rw [ho] at h hk
    have hcl : (s.ops k).claimed? = some v.position := by rw [ho]; rfl
    simp only [run] at h
    split_ifs at h with hseq <;> cases h
    · exact absurd (hi.seq_of_claimed hcl).1 hseq
    · exact hi.setOp (by rw [ho]; rfl) (by rw [ho]; rfl) (fun p m h => by rw [ho] at h; exact h)
        (fun c h => by rw [ho] at h; exact h) hk
  | release_store v =>
    rw [ho] at h
    simp only [run, Option.some.injEq] at h
    subst h
    exact hi.release_store ho
  | none | sent | polled_none | holding | released | failed =>
    rw [ho] at h
    simp [run] at h

theorem Inv.of_step (hi : Inv g s) {k : Nat} {a : Action} {s' : State} (h : step g s k a = some s') :
    Inv g s' := by
  cases a with
  | post_send m =>
    simp only [step] at h
    split at h
    · rename_i ho
      split_ifs at h with hbad <;> cases h
      · exact hi.setOp_unowned (by rw [ho]; rfl) rfl fun _ => .inl fun ⟨h1, h2⟩ => by omega
      · exact hi.setOp_unowned (by rw [ho]; rfl) rfl ⟨by omega, by omega⟩
    · cases h
  | poll =>
    simp only [step] at h
    split at h
    · rename_i ho
      cases h
      exact hi.setOp_unowned (by rw [ho]; rfl) rfl trivial
    · cases h
  | release =>
    simp only [step] at h
    split at h
    · rename_i v ho
      cases h
      have hk := hi.ops k
      rw [ho] at hk
      exact hi.setOp (by rw [ho]; rfl) (by rw [ho]; rfl) (fun p m h => by rw [ho] at h; exact h)
        (fun c h => by rw [ho] at h; exact h) hk
    · cases h
  | run spurious => exact hi.of_run h

theorem reachable_inv {s : State} (hs : Reachable g s) : Inv g s := by
  refine Machine.Reachable.induction_inv ?_ ?_ hs
  · rintro _ rfl
    exact init_inv g
  · rintro s s' hi ⟨k, a, h⟩
    exact hi.of_step h

end Lci.ShmRing
