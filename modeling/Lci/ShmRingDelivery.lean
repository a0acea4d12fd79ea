import Lci.ShmRingInv

/-! What the invariant of the ring gives every reachable state: each position is reserved once
and claimed once, in order; a slot has one owner at a time, so no producer of a later generation
writes a slot whose view is still held; a view carries the message the reserving `post_send` was
given; and no corruption branch of `reserve`, `publish`, `poll` or `release` is ever taken. -/

namespace Lci.ShmRing

variable {g : Geometry} {s : State}

theorem Inv.owner_exclusive (hi : Inv g s) {k k' p q : Nat}
    (hk : (s.ops k).reserved? = some p ∨ (s.ops k).claimed? = some p)
    (hk' : (s.ops k').reserved? = some q ∨ (s.ops k').claimed? = some q)
    (hidx : slot_index g p = slot_index g q) : k = k' := by
  have hwin : ∀ {k p}, (s.ops k).reserved? = some p ∨ (s.ops k).claimed? = some p →
      p < s.producer_position ∧ s.producer_position ≤ p + g.slot_count := by
    rintro k p (h | h)
    · obtain ⟨-, -, h3, h4⟩ := hi.producer_owned h
      exact ⟨h3, h4⟩
    · obtain ⟨-, -, h3, h4⟩ := hi.consumer_owned h
      exact ⟨h3, h4⟩
  obtain rfl := eq_of_window hidx (hwin hk') (hwin hk)
  rcases hk with h | h <;> rcases hk' with h' | h'
  · exact hi.producer_owner_unique h h'
  · exact absurd (hi.consumer_owned h').2.1 (Nat.not_lt.mpr (hi.producer_owned h).2.1)
  · exact absurd (hi.consumer_owned h).2.1 (Nat.not_lt.mpr (hi.producer_owned h').2.1)
  · exact hi.consumer_owner_unique h h'

theorem Inv.window_sequence (hi : Inv g s) {q : Nat} (h1 : g.initial_position ≤ q)
    (h2 : q < s.producer_position) (h3 : s.producer_position ≤ q + g.slot_count) :
    (s.slots (slot_index g q)).sequence = encode_sequence q .reusable ∨
      (s.slots (slot_index g q)).sequence = encode_sequence q .published ∨
      (s.slots (slot_index g q)).sequence = encode_sequence (q + g.slot_count) .reusable := by
  have hq := hi.window q h1 h2 h3
  by_cases hC : s.consumer_position ≤ q
  · by_cases ho : ProducerOwns s q
    · exact .inl (hq.reserved hC ho)
    · exact .inr (.inl (hq.published hC ho).1)
  · by_cases ho : ConsumerOwns s q
    · exact .inr (.inl (hq.claimed (by omega) ho).1)
    · rw [hq.freed (by omega) ho, released_sequence]
      split
      · exact .inr (.inr rfl)
      · exact .inr (.inl rfl)

/-- **Exactly-once FIFO delivery.** In every state reached from `initialize_at` by any
interleaving of `post_send`, `poll` and `release` steps, the positions below the producer
position were reserved once each, in order, by distinct calls; every slot has one owner at a time
(so a reserving `post_send` is the only writer of its slot until it publishes, and no publication
of a later generation writes the slot of a view still held); the positions below the consumer
position were claimed once each, in order, by distinct polls; and a view carries the header and
payload that the `post_send` which reserved its position was given. -/
theorem ring_delivers_exactly_once (hs : Reachable g s) :
    s.reservations.map (·.position) =
        List.range' g.initial_position (s.producer_position - g.initial_position) ∧
      (s.reservations.map (·.op)).Nodup ∧
      (∀ k k' p q, ((s.ops k).reserved? = some p ∨ (s.ops k).claimed? = some p) →
        ((s.ops k').reserved? = some q ∨ (s.ops k').claimed? = some q) →
        slot_index g p = slot_index g q → k = k') ∧
      (∀ k k' v q, s.ops k = .holding v → (s.ops k').reserved? = some q →
        slot_index g q ≠ slot_index g v.position) ∧
      s.claims.map Prod.fst =
        List.range' g.initial_position (s.consumer_position - g.initial_position) ∧
      (s.claims.map Prod.snd).Nodup ∧
      (∀ k v, s.ops k = .holding v → ∃ r ∈ s.reservations, r.position = v.position ∧
        (s.ops r.op).Reserved r.position r.msg ∧ v.Fits r.msg ∧
        (s.slots (slot_index g v.position)).payload.take v.size = r.msg.data) := by
  have hi := reachable_inv hs
  refine ⟨hi.reservations, hi.reservation_ops, fun k k' p q hk hk' hidx =>
    hi.owner_exclusive hk hk' hidx, fun k k' v q hk hk' hidx => ?_, hi.claims, hi.claim_ops,
    fun k v hk => ?_⟩
  · -- the publisher would share the slot with the view's consumer
    have hcl : (s.ops k).claimed? = some v.position := by rw [hk]; rfl
    obtain rfl := hi.owner_exclusive (.inr hcl) (.inl hk') hidx.symm
    rw [hk] at hk'
    cases hk'
  · have hcl : (s.ops k).claimed? = some v.position := by rw [hk]; rfl
    have hop := hi.ops k
    rw [hk] at hop
    obtain ⟨-, -, r, hr, hrp, hfit⟩ := hop
    obtain ⟨-, r', hr', hr'p, hholds⟩ := hi.seq_of_claimed hcl
    obtain rfl := hi.reservation_unique hr hr' (hrp.trans hr'p.symm)
    refine ⟨r, hr, hrp, (hi.reservation_current r hr).2, hfit, ?_⟩
    rw [hfit.2.2]
    exact hholds.2.2.2

/-- The last state of a run of calls and atomic steps that never gets stuck is reachable. -/
theorem reachable_of_run (g : Geometry) (as : List (Nat × Action))
    (h : (as.foldlM (fun s ka => step g s ka.1 ka.2) (initialize_at g)).isSome = true) :
    Reachable g
      ((as.foldlM (fun s ka => step g s ka.1 ka.2) (initialize_at g)).getD (initialize_at g)) := by
  have h0 : Machine.Reachable (· = initialize_at g)
      (fun s s' => ∃ ka : Nat × Action, step g s ka.1 ka.2 = some s') (initialize_at g) := .init rfl
  exact (h0.of_foldlM_isSome as h).mono fun _ _ ⟨ka, hka⟩ => ⟨ka.1, ka.2, hka⟩

/-- A ring of four slots whose first position is 5. -/
def sampleGeometry : Geometry where
  slot_count := 4
  slot_count_pow := ⟨2, rfl⟩
  slot_count_le := by unfold maximum_position; norm_num
  max_payload_size := 64
  initial_position := 5
  initial_position_le := by unfold maximum_position; norm_num
  producer_cas_attempts := 4
  consumer_cas_attempts := 1

/-- Two producers race for position 5: the second wins, the first retries and takes 6, and
publishes it first; a poll meanwhile finds 5 not yet published. Then 5 is published, claimed and
released (its slot freed for position 9), 6 is claimed and held, and a third `post_send` reserves
7 and has not published it. -/
def sample_run : List (Nat × Action) :=
  [(0, .post_send ⟨0, [1, 2, 3], 7⟩), (1, .post_send ⟨1, [4], 8⟩),
    (0, .run false), (1, .run false), (0, .run false), (1, .run false), (1, .run false),
    (0, .run false), (0, .run false), (0, .run false), (0, .run false),
    (0, .run false), (0, .run false), (0, .run false),
    (2, .poll), (2, .run false), (2, .run false), (2, .run false),
    (1, .run false), (1, .run false), (1, .run false),
    (3, .poll), (3, .run false), (3, .run false), (3, .run false), (3, .run false),
    (3, .release), (3, .run false), (3, .run false),
    (4, .poll), (4, .run false), (4, .run false), (4, .run false), (4, .run false),
    (5, .post_send ⟨2, [], 9⟩), (5, .run false), (5, .run false), (5, .run false)]

/-- Where `sample_run` leaves the ring. -/
def sample_state : State :=
  (sample_run.foldlM (fun s ka => step sampleGeometry s ka.1 ka.2) (initialize_at sampleGeometry)).getD
    (initialize_at sampleGeometry)

theorem sample_state_reachable : Reachable sampleGeometry sample_state :=
  reachable_of_run sampleGeometry sample_run (by decide +kernel)

theorem ring_delivers_exactly_once_sample :
    let s := sample_state
    Reachable sampleGeometry s ∧
      s.reservations.map (fun r => (r.position, r.op)) = [(5, 1), (6, 0), (7, 5)] ∧
      s.claims = [(5, 3), (6, 4)] ∧ s.ops 4 = .holding ⟨0, 7, 3, 6⟩ ∧ (s.ops 5).reserved? = some 7 ∧
      (s.reservations.map (·.position) = List.range' sampleGeometry.initial_position
        (s.producer_position - sampleGeometry.initial_position) ∧
      (s.reservations.map (·.op)).Nodup ∧
      (∀ k k' p q, ((s.ops k).reserved? = some p ∨ (s.ops k).claimed? = some p) →
        ((s.ops k').reserved? = some q ∨ (s.ops k').claimed? = some q) →
        slot_index sampleGeometry p = slot_index sampleGeometry q → k = k') ∧
      (∀ k k' v q, s.ops k = .holding v → (s.ops k').reserved? = some q →
        slot_index sampleGeometry q ≠ slot_index sampleGeometry v.position) ∧
      s.claims.map Prod.fst = List.range' sampleGeometry.initial_position
        (s.consumer_position - sampleGeometry.initial_position) ∧
      (s.claims.map Prod.snd).Nodup ∧
      (∀ k v, s.ops k = .holding v → ∃ r ∈ s.reservations, r.position = v.position ∧
        (s.ops r.op).Reserved r.position r.msg ∧ v.Fits r.msg ∧
        (s.slots (slot_index sampleGeometry v.position)).payload.take v.size = r.msg.data)) :=
  ⟨sample_state_reachable, by decide +kernel, by decide +kernel, rfl, by decide +kernel,
    ring_delivers_exactly_once sample_state_reachable⟩

/-- **No corruption branch is reachable.** From `initialize_at`, every interleaving keeps the
positions ordered within one generation and every slot word one of those its position allows
(the first generation's slots still free for it), no operation ever throws, and `post_send` of a
message it accepts returns `fatal` only once the producer position has reached
`maximum_position`. -/
theorem ring_never_corrupted (hs : Reachable g s) :
    g.initial_position ≤ s.consumer_position ∧ s.consumer_position ≤ s.producer_position ∧
      s.producer_position ≤ s.consumer_position + g.slot_count ∧
      (∀ q, g.initial_position ≤ q → q < s.producer_position →
        s.producer_position ≤ q + g.slot_count →
        (s.slots (slot_index g q)).sequence = encode_sequence q .reusable ∨
          (s.slots (slot_index g q)).sequence = encode_sequence q .published ∨
          (s.slots (slot_index g q)).sequence = encode_sequence (q + g.slot_count) .reusable) ∧
      (∀ q, s.producer_position ≤ q → q < g.initial_position + g.slot_count →
        (s.slots (slot_index g q)).sequence = encode_sequence q .reusable) ∧
      (∀ k f, s.ops k ≠ .failed f) ∧
      (∀ k m, s.ops k = .sent m .fatal → m.Valid g → maximum_position ≤ s.producer_position) := by
  have hi := reachable_inv hs
  refine ⟨hi.initial_le, hi.consumer_le, hi.producer_le, fun q h1 h2 h3 =>
    hi.window_sequence h1 h2 h3, hi.fresh, fun k f hk => ?_, fun k m hk hv => ?_⟩
  · have := hi.ops k
    rw [hk] at this
    exact this
  · have := hi.ops k
    rw [hk] at this
    exact (this rfl).resolve_left (not_not.mpr hv)

theorem ring_never_corrupted_sample :
    let s := sample_state
    Reachable sampleGeometry s ∧ s.producer_position = 8 ∧ s.consumer_position = 7 ∧
      (s.slots (slot_index sampleGeometry 5)).sequence = encode_sequence 9 .reusable ∧
      s.ops 2 = .polled_none ∧
      (sampleGeometry.initial_position ≤ s.consumer_position ∧
      s.consumer_position ≤ s.producer_position ∧
      s.producer_position ≤ s.consumer_position + sampleGeometry.slot_count ∧
      (∀ q, sampleGeometry.initial_position ≤ q → q < s.producer_position →
        s.producer_position ≤ q + sampleGeometry.slot_count →
        (s.slots (slot_index sampleGeometry q)).sequence = encode_sequence q .reusable ∨
          (s.slots (slot_index sampleGeometry q)).sequence = encode_sequence q .published ∨
          (s.slots (slot_index sampleGeometry q)).sequence =
            encode_sequence (q + sampleGeometry.slot_count) .reusable) ∧
      (∀ q, s.producer_position ≤ q → q < sampleGeometry.initial_position +
        sampleGeometry.slot_count →
        (s.slots (slot_index sampleGeometry q)).sequence = encode_sequence q .reusable) ∧
      (∀ k f, s.ops k ≠ .failed f) ∧
      (∀ k m, s.ops k = .sent m .fatal → m.Valid sampleGeometry →
        maximum_position ≤ s.producer_position)) :=
  ⟨sample_state_reachable, by decide +kernel, by decide +kernel, by decide +kernel, rfl,
    ring_never_corrupted sample_state_reachable⟩

end Lci.ShmRing
