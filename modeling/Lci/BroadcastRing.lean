import Lci.Collective

/-! The ring broadcast (`build_graph_ring`). Each rank builds a chain of stages, one per step
`0 ≤ step ≤ nsteps` that does not `continue`: a non-root rank receives chunk `step` from its left
neighbour, and a rank whose right neighbour is not the root sends chunk `step - 1` to it; the
operations of a stage start once those of the stage before have completed. Chunk `idx` starts
`idx * step_size` bytes into the buffer and is `min(step_size, size - idx * step_size)` long,
with `step_size = (size + nsteps - 1) / nsteps`: all three are `size_t`, so the subtraction wraps
once `idx * step_size` passes `size`, and the chunk then has the full `step_size` past the end of
the buffer. The neighbours are computed on `int`. -/

namespace Lci.BroadcastRing

open Collective

/-- An integer wrapped to `size_t`. -/
def size_t (x : Int) : Nat := (x % 2 ^ 64).toNat

/-- `step_size = (size + nsteps - 1) / nsteps`, in `size_t`. -/
def step_size (size nsteps : Nat) : Nat := size_t (size + nsteps - 1) / nsteps

/-- Chunk `idx`: its offset `idx * step_size` and its length
`std::min(step_size, size - idx * step_size)`, in `size_t`. -/
def chunk (size nsteps idx : Nat) : Nat × Nat :=
  (size_t (idx * step_size size nsteps),
    min (step_size size nsteps) (size_t (size - idx * step_size size nsteps : Int)))

/-- `left = (rank - 1 + nranks) % nranks` and `right = (rank + 1) % nranks`, on `int`. -/
def neighbours (nranks rank : Nat) : Int × Int :=
  ((wrap ((rank : Int) - 1 + nranks)).tmod nranks, ((rank : Int) + 1).tmod nranks)

/-- An operation of the graph: receive from or send to `peer` the `len` bytes at `offset`. -/
inductive RingOp
  | recv (peer : Int) (offset len : Nat)
  | send (peer : Int) (offset len : Nat)
  deriving DecidableEq, Repr

/-- The operations step `step` of the loop adds at `rank`; `none` where the step `continue`s. -/
def ring_step (nranks root rank size nsteps step : Nat) : Option (List RingOp) :=
  let left := (neighbours nranks rank).1
  let right := (neighbours nranks rank).2
  if (step = 0 ∧ rank = root) ∨ (step = nsteps ∧ right = root) then none
  else
    some ((if step ≠ nsteps ∧ rank ≠ root then
        [.recv left (chunk size nsteps step).1 (chunk size nsteps step).2] else []) ++
      (if step ≠ 0 ∧ right ≠ root then
        [.send right (chunk size nsteps (step - 1)).1 (chunk size nsteps (step - 1)).2]
      else []))

/-- `build_graph_ring`: the stages of the graph `rank` builds, in order. -/
def build_graph_ring (nranks root rank size nsteps : Nat) : List (List RingOp) :=
  (List.range (nsteps + 1)).filterMap (ring_step nranks root rank size nsteps)

section Chunks

theorem size_t_of_lt {x : Int} (h0 : 0 ≤ x) (h : x < 2 ^ 64) : (size_t x : Int) = x := by
  rw [size_t, Int.emod_eq_of_lt h0 h, Int.toNat_of_nonneg h0]

theorem size_t_of_neg {x : Int} (h0 : -2 ^ 64 ≤ x) (h : x < 0) : (size_t x : Int) = x + 2 ^ 64 := by
  have hmod : x % 2 ^ 64 = x + 2 ^ 64 := by
    rw [← Int.add_mul_emod_self_right x 1 (2 ^ 64), one_mul]
    exact Int.emod_eq_of_lt (by omega) (by omega)
  rw [size_t, hmod, Int.toNat_of_nonneg (by omega)]

variable {size nsteps idx : Nat}

theorem step_size_eq (hk : 0 < nsteps) (h : size + nsteps ≤ 2 ^ 64) :
    step_size size nsteps = (size + nsteps - 1) / nsteps := by
  have hcast : size_t ((size : Int) + nsteps - 1) = size + nsteps - 1 := by
    have := size_t_of_lt (x := (size : Int) + nsteps - 1) (by omega) (by omega)
    omega
  rw [step_size, hcast]

theorem le_mul_step_size (hk : 0 < nsteps) (h : size + nsteps ≤ 2 ^ 64) :
    size ≤ nsteps * step_size size nsteps := by
  have hlt := Nat.lt_div_mul_add (a := size + nsteps - 1) hk
  rw [step_size_eq hk h, Nat.mul_comm]
  omega

theorem chunk_of_le (h : idx * step_size size nsteps ≤ size) (hs : size < 2 ^ 64) :
    chunk size nsteps idx =
      (idx * step_size size nsteps, min (step_size size nsteps) (size - idx * step_size size nsteps)) := by
  have hoff := size_t_of_lt (x := ((idx * step_size size nsteps : Nat) : Int)) (by omega) (by omega)
  have hlen := size_t_of_lt (x := (size : Int) - (idx * step_size size nsteps : Nat))
    (by omega) (by omega)
  simp only [chunk, Prod.mk.injEq]
  push_cast at hoff hlen
  constructor <;> omega

/-- A chunk that starts past the buffer wraps `size - idx * step_size` and keeps the whole
`step_size`. -/
theorem chunk_of_lt (h : size < idx * step_size size nsteps)
    (hfit : (idx + 1) * step_size size nsteps ≤ 2 ^ 64) :
    chunk size nsteps idx = (idx * step_size size nsteps, step_size size nsteps) := by
  have hfit' : idx * step_size size nsteps + step_size size nsteps ≤ 2 ^ 64 := by
    rw [Nat.succ_mul] at hfit
    exact hfit
  have hpos : 0 < step_size size nsteps := by
    rcases Nat.eq_zero_or_pos (step_size size nsteps) with h0 | h0
    · rw [h0, Nat.mul_zero] at h
      omega
    · exact h0
  have hoff := size_t_of_lt (x := ((idx * step_size size nsteps : Nat) : Int)) (by omega) (by omega)
  have hlen := size_t_of_neg (x := (size : Int) - (idx * step_size size nsteps : Nat))
    (by omega) (by omega)
  simp only [chunk, Prod.mk.injEq]
  push_cast at hoff hlen
  constructor <;> omega

/-- The segments `cs` lie one after the other from `a` and end at `b`. -/
def Tiles : Nat → List (Nat × Nat) → Nat → Prop
  | a, [], b => a = b
  | a, c :: cs, b => c.1 = a ∧ Tiles (a + c.2) cs b

theorem chunks_tile_from (hs : size + nsteps ≤ 2 ^ 64)
    (hnowrap : (nsteps - 1) * step_size size nsteps ≤ size) :
    ∀ j m, m + j + 1 = nsteps →
      Tiles (m * step_size size nsteps) ((List.range' m (j + 1)).map (chunk size nsteps)) size
  | 0, m, hm => by
    have hcover := le_mul_step_size (by omega) hs
    have hm' : m = nsteps - 1 := by omega
    subst hm'
    have hlast : nsteps * step_size size nsteps = (nsteps - 1) * step_size size nsteps +
        step_size size nsteps := by
      rw [← Nat.succ_mul, Nat.succ_eq_add_one, Nat.sub_add_cancel (by omega)]
    rw [List.range'_one, List.map_singleton, Tiles, Tiles, chunk_of_le hnowrap (by omega)]
    refine ⟨rfl, ?_⟩
    dsimp only
    omega
  | j + 1, m, hm => by
    have hmul : (m + 1) * step_size size nsteps ≤ (nsteps - 1) * step_size size nsteps :=
      Nat.mul_le_mul_right _ (by omega)
    rw [Nat.succ_mul] at hmul
    rw [List.range'_succ, List.map_cons, Tiles, chunk_of_le (by omega) (by omega)]
    refine ⟨rfl, ?_⟩
    dsimp only
    rw [min_eq_left (by omega), ← Nat.succ_mul]
    exact chunks_tile_from hs hnowrap j (m + 1) (by omega)

/-- **Without a wrap the chunks partition the buffer in order.** When the last chunk starts
inside the buffer, the `nsteps` chunks tile `[0, size)`. -/
theorem chunks_tile (hk : 0 < nsteps) (hs : size + nsteps ≤ 2 ^ 64)
    (hnowrap : (nsteps - 1) * step_size size nsteps ≤ size) :
    Tiles 0 ((List.range nsteps).map (chunk size nsteps)) size := by
  have h := chunks_tile_from hs hnowrap (nsteps - 1) 0 (by omega)
  rwa [Nat.zero_mul, Nat.sub_add_cancel hk, ← List.range_eq_range'] at h

end Chunks

section Steps

variable {nranks root rank size nsteps : Nat}

variable (nranks size) in
theorem ring_step_recv {idx : Nat} (hne : rank ≠ root) (hidx : idx < nsteps) :
    ∃ ops, ring_step nranks root rank size nsteps idx = some ops ∧
      RingOp.recv (neighbours nranks rank).1 (chunk size nsteps idx).1
        (chunk size nsteps idx).2 ∈ ops := by
  simp only [ring_step]
  rw [if_neg (by omega), if_pos ⟨hidx.ne, hne⟩]
  exact ⟨_, rfl, by simp⟩

theorem mem_ring_step {step : Nat} {ops : List RingOp}
    (h : ring_step nranks root rank size nsteps step = some ops) {op : RingOp} :
    op ∈ ops ↔
      ((step ≠ nsteps ∧ rank ≠ root) ∧ op = .recv (neighbours nranks rank).1
        (chunk size nsteps step).1 (chunk size nsteps step).2) ∨
      ((step ≠ 0 ∧ (neighbours nranks rank).2 ≠ root) ∧ op = .send (neighbours nranks rank).2
        (chunk size nsteps (step - 1)).1 (chunk size nsteps (step - 1)).2) := by
  simp only [ring_step] at h
  split_ifs at h <;> cases h <;> simp_all

theorem ring_step_root_recv {step : Nat} {ops : List RingOp}
    (h : ring_step nranks root root size nsteps step = some ops) (p : Int) (o l : Nat) :
    RingOp.recv p o l ∉ ops := by
  rw [mem_ring_step h]
  simp

theorem ring_step_last_send {step : Nat} {ops : List RingOp}
    (hright : (neighbours nranks rank).2 = root)
    (h : ring_step nranks root rank size nsteps step = some ops) (p : Int) (o l : Nat) :
    RingOp.send p o l ∉ ops := by
  rw [mem_ring_step h]
  simp [hright]

variable (size nsteps) in
theorem ring_step_send (idx : Nat) (hright : (neighbours nranks rank).2 ≠ root) :
    ∃ ops, ring_step nranks root rank size nsteps (idx + 1) = some ops ∧
      RingOp.send (neighbours nranks rank).2 (chunk size nsteps idx).1
        (chunk size nsteps idx).2 ∈ ops := by
  have hskip : ¬((idx + 1 = 0 ∧ rank = root) ∨
      (idx + 1 = nsteps ∧ (neighbours nranks rank).2 = (root : Int))) := by
    rintro (⟨h, -⟩ | ⟨-, h⟩)
    · exact Nat.succ_ne_zero idx h
    · exact hright h
  simp only [ring_step]
  rw [if_neg hskip]
  refine ⟨_, rfl, ?_⟩
  simp [hright]

/-- On fewer than `2^30` ranks no `int` wraps: the neighbours are `rank - 1` and `rank + 1` around
the ring. -/
theorem neighbours_eq (hn : 0 < nranks) (hn' : nranks ≤ 2 ^ 30) (hr : rank < nranks) :
    neighbours nranks rank =
      ((((rank + nranks - 1) % nranks : Nat) : Int), (((rank + 1) % nranks : Nat) : Int)) := by
  have hwrap : wrap ((rank : Int) - 1 + nranks) = ((rank + nranks - 1 : Nat) : Int) := by
    rw [wrap_of_bounds (by omega) (by omega)]
    omega
  simp only [neighbours, hwrap, Prod.mk.injEq]
  constructor
  · rw [Int.tmod_eq_emod_of_nonneg (by omega)]
    push_cast
    rfl
  · rw [Int.tmod_eq_emod_of_nonneg (by omega)]
    push_cast
    rfl

end Steps

/-- Chunk `idx` reaches `rank` from its left neighbour: `rank` receives it in step `idx`, the
neighbour sends it in step `idx + 1`, and unless the neighbour is the root it received the chunk
itself in step `idx`. -/
def Relays (nranks root size nsteps rank idx : Nat) : Prop :=
  (∃ ops, ring_step nranks root rank size nsteps idx = some ops ∧
    RingOp.recv (((rank + nranks - 1) % nranks : Nat) : Int) (chunk size nsteps idx).1
      (chunk size nsteps idx).2 ∈ ops) ∧
  (∃ ops, ring_step nranks root ((rank + nranks - 1) % nranks) size nsteps (idx + 1) = some ops ∧
    RingOp.send (rank : Int) (chunk size nsteps idx).1 (chunk size nsteps idx).2 ∈ ops) ∧
  ((rank + nranks - 1) % nranks ≠ root →
    ∃ ops, ring_step nranks root ((rank + nranks - 1) % nranks) size nsteps idx = some ops ∧
      ∃ p, RingOp.recv p (chunk size nsteps idx).1 (chunk size nsteps idx).2 ∈ ops)

theorem neighbours_right_of_left (hn : 0 < nranks) (hn' : nranks ≤ 2 ^ 30) (hr : rank < nranks) :
    (neighbours nranks ((rank + nranks - 1) % nranks)).2 = rank := by
  rw [neighbours_eq hn hn' (Nat.mod_lt _ hn)]
  dsimp only
  rw [Nat.mod_add_mod, show rank + nranks - 1 + 1 = rank + nranks by omega, Nat.add_mod_right,
    Nat.mod_eq_of_lt hr]

/-- Each chunk travels the ring: on `2 ≤ nranks ≤ 2^30` ranks, a send of a chunk starts only
after its own receive of the chunk has completed. -/
theorem ring_chunk_relay (hn : 2 ≤ nranks) (hn' : nranks ≤ 2 ^ 30)
    {rank idx : Nat} (hr : rank < nranks) (hne : rank ≠ root) (hidx : idx < nsteps) :
    Relays nranks root size nsteps rank idx := by
  have hnb := neighbours_eq (by omega) hn' hr
  have hright := neighbours_right_of_left (by omega) hn' hr
  refine ⟨?_, ?_, fun hl => ?_⟩
  · have h := ring_step_recv nranks size hne hidx
    rwa [hnb] at h
  · have h := ring_step_send size nsteps idx
      (show (neighbours nranks ((rank + nranks - 1) % nranks)).2 ≠ (root : Int) by
        rw [hright]; exact_mod_cast hne)
    rwa [hright] at h
  · obtain ⟨ops, hops, hmem⟩ := ring_step_recv nranks size hl hidx
    exact ⟨ops, hops, _, hmem⟩

/-- **The ring broadcast carries the whole buffer.** On `2 ≤ nranks ≤ 2^30` ranks, when the last
of the `nsteps` chunks starts inside the buffer, the chunks tile `[0, size)` in order; every
chunk reaches every non-root rank from its left neighbour, which sends it only after it has
received it, unless it is the root; the root receives nothing, and the rank before it sends
nothing. -/
theorem ring_broadcast_relays {nranks root size nsteps : Nat} (hn : 2 ≤ nranks)
    (hn' : nranks ≤ 2 ^ 30) (hroot : root < nranks) (hk : 0 < nsteps)
    (hs : size + nsteps ≤ 2 ^ 64) (hnowrap : (nsteps - 1) * step_size size nsteps ≤ size) :
    Tiles 0 ((List.range nsteps).map (chunk size nsteps)) size ∧
      (∀ rank < nranks, rank ≠ root → ∀ idx < nsteps, Relays nranks root size nsteps rank idx) ∧
      (∀ step ops, ring_step nranks root root size nsteps step = some ops →
        ∀ p o l, RingOp.recv p o l ∉ ops) ∧
      (∀ step ops,
        ring_step nranks root ((root + nranks - 1) % nranks) size nsteps step = some ops →
        ∀ p o l, RingOp.send p o l ∉ ops) :=
  ⟨chunks_tile hk hs hnowrap, fun _ hr hne _ hidx => ring_chunk_relay hn hn' hr hne hidx,
    fun _ _ h => ring_step_root_recv h,
    fun _ _ h => ring_step_last_send (neighbours_right_of_left (by omega) hn' hroot) h⟩

/-- Four ranks broadcasting ten bytes from rank 1 in three steps: chunks of four, four and two
bytes, relayed around the ring; rank 0 sends nothing. -/
theorem ring_broadcast_relays_four :
    (2 ≤ 4 ∧ 4 ≤ 2 ^ 30 ∧ 1 < 4 ∧ 0 < 3 ∧ 10 + 3 ≤ 2 ^ 64 ∧ (3 - 1) * step_size 10 3 ≤ 10) ∧
      (List.range 3).map (chunk 10 3) = [(0, 4), (4, 4), (8, 2)] ∧
      build_graph_ring 4 1 0 10 3 = [[.recv 3 0 4], [.recv 3 4 4], [.recv 3 8 2]] ∧
      (Tiles 0 ((List.range 3).map (chunk 10 3)) 10 ∧
        (∀ rank < 4, rank ≠ 1 → ∀ idx < 3, Relays 4 1 10 3 rank idx) ∧
        (∀ step ops, ring_step 4 1 1 10 3 step = some ops → ∀ p o l, RingOp.recv p o l ∉ ops) ∧
        (∀ step ops, ring_step 4 1 ((1 + 4 - 1) % 4) 10 3 step = some ops →
          ∀ p o l, RingOp.send p o l ∉ ops)) :=
  have h : 2 ≤ 4 ∧ 4 ≤ 2 ^ 30 ∧ 1 < 4 ∧ 0 < 3 ∧ 10 + 3 ≤ 2 ^ 64 ∧
      (3 - 1) * step_size 10 3 ≤ 10 := by
    decide
  ⟨h, by decide, by decide,
    ring_broadcast_relays h.1 h.2.1 h.2.2.1 h.2.2.2.1 h.2.2.2.2.1 h.2.2.2.2.2⟩

/-- **The ring broadcast writes past the buffer.** Whenever chunk `idx < nsteps` starts past the
end of the buffer (`idx * step_size > size`, as for `size = 8` and `nsteps = 7`), every non-root
rank receives in step `idx` a whole `step_size` of bytes at offset `idx * step_size`, outside
`[0, size)`. -/
theorem ring_recv_outside_buffer {nranks root rank size nsteps idx : Nat} (hne : rank ≠ root)
    (hidx : idx < nsteps) (hfit : (idx + 1) * step_size size nsteps ≤ 2 ^ 64)
    (hover : size < idx * step_size size nsteps) :
    ∃ ops, ring_step nranks root rank size nsteps idx = some ops ∧
      RingOp.recv (neighbours nranks rank).1 (idx * step_size size nsteps)
        (step_size size nsteps) ∈ ops ∧
      size < idx * step_size size nsteps ∧ 0 < step_size size nsteps := by
  have hpos : 0 < step_size size nsteps := by
    rcases Nat.eq_zero_or_pos (step_size size nsteps) with h0 | h0
    · rw [h0, Nat.mul_zero] at hover
      omega
    · exact h0
  obtain ⟨ops, hops, hmem⟩ := ring_step_recv nranks size hne hidx
  rw [chunk_of_lt hover hfit] at hmem
  exact ⟨ops, hops, hmem, hover, hpos⟩

/-- Eight ranks broadcasting eight bytes from rank `0` with the default `ring_nsteps = 7`:
`step_size` is `2`, and rank `1` receives two bytes at offset `10` in step `5`. -/
theorem ring_recv_outside_buffer_eight :
    (1 ≠ 0 ∧ 5 < 7 ∧ (5 + 1) * step_size 8 7 ≤ 2 ^ 64 ∧ 8 < 5 * step_size 8 7) ∧
      ∃ ops, ring_step 8 0 1 8 7 5 = some ops ∧
        RingOp.recv (neighbours 8 1).1 (5 * step_size 8 7) (step_size 8 7) ∈ ops ∧
        8 < 5 * step_size 8 7 ∧ 0 < step_size 8 7 :=
  have h : (1 ≠ 0 ∧ 5 < 7 ∧ (5 + 1) * step_size 8 7 ≤ 2 ^ 64 ∧ 8 < 5 * step_size 8 7) := by
    decide
  ⟨h, ring_recv_outside_buffer h.1 h.2.1 h.2.2.1 h.2.2.2⟩

end Lci.BroadcastRing
