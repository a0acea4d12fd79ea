import Mathlib

/-! A binomial-tree broadcast over the positions `0, …, n - 1` of a line, position `0` holding the
data. Before round `k` the line is cut into blocks, each the positions that one holder of the data
is responsible for; the holder is the block's first position. In round `k` every block is split at
`jumpAt n k` past its start, and the holder sends to the first position of the right part, which
then holds the data for that part. The jump is halved, rounded up, each round and the rounds stop
after the one with jump `1`, which happens after `⌈log₂ n⌉` rounds: every block is then a single
position, so every position holds the data. -/

namespace Lci.BinomialTree

/-- The jump of round `k`: `⌈n / 2⌉` first, halved and rounded up each round. -/
def jumpAt (n : Nat) : Nat → Nat
  | 0 => (n + 1) / 2
  | k + 1 => (jumpAt n k + 1) / 2

/-- Split a block `(first, last)` at `J` past its start and keep the part that holds `p`. -/
def blockStep (J p : Nat) (blk : Nat × Nat) : Nat × Nat :=
  if blk.1 + J ≤ p then (blk.1 + J, blk.2) else (blk.1, min (blk.1 + J - 1) blk.2)

/-- The block that holds position `p` before round `k`. -/
def blockAt (n p : Nat) : Nat → Nat × Nat
  | 0 => (0, n - 1)
  | k + 1 => blockStep (jumpAt n k) p (blockAt n p k)

/-- What a position does in one round, its peer given as a position. -/
inductive Move
  | send (q : Nat)
  | recv (q : Nat)
  | none
  deriving DecidableEq, Repr

/-- The move of position `p` in round `k`: a holder sends `jumpAt n k` positions on when that
position is in its block; the position that far past its block's holder receives from it. -/
def moveAt (n p k : Nat) : Move :=
  if (blockAt n p k).1 = p ∧ jumpAt n k ≤ (blockAt n p k).2 - p then .send (p + jumpAt n k)
  else if p - (blockAt n p k).1 = jumpAt n k then .recv (p - jumpAt n k)
  else .none

/-- The schedule has `⌈log₂ n⌉` rounds. -/
def rounds (n : Nat) : Nat := Nat.clog 2 n

section Jump

variable {n k : Nat}

@[simp] theorem jumpAt_zero : jumpAt n 0 = (n + 1) / 2 := rfl

@[simp] theorem jumpAt_succ : jumpAt n (k + 1) = (jumpAt n k + 1) / 2 := rfl

theorem one_le_jumpAt (hn : 1 ≤ n) : ∀ k, 1 ≤ jumpAt n k
  | 0 => by simp; omega
  | k + 1 => by have := one_le_jumpAt hn k; simp; omega

theorem jumpAt_le : ∀ k, jumpAt n k ≤ n
  | 0 => by simp; omega
  | k + 1 => by have := jumpAt_le k; simp; omega

theorem jumpAt_le_two_mul_succ : jumpAt n k ≤ 2 * jumpAt n (k + 1) := by
  simp; omega

/-- While rounds remain, the rounds left after round `k` are those its jump still needs:
`⌈log₂ J⌉ = ⌈log₂ ⌈J / 2⌉⌉ + 1` for `J ≥ 2`. -/
theorem clog_jumpAt (hn : 2 ≤ n) : ∀ {k}, k < rounds n → Nat.clog 2 (jumpAt n k) + k + 1 = rounds n
  | 0, _ => by
    have := Nat.clog_of_two_le (b := 2) (n := n) (by norm_num) hn
    simp [rounds, this]
  | k + 1, hk => by
    have ih := clog_jumpAt hn (k := k) (by omega)
    have hJ : 2 ≤ jumpAt n k := by
      by_contra h
      have : Nat.clog 2 (jumpAt n k) = 0 := Nat.clog_of_right_le_one (by omega) 2
      omega
    have hrec := Nat.clog_of_two_le (b := 2) (n := jumpAt n k) (by norm_num) hJ
    have hhalf : (jumpAt n k + 2 - 1) / 2 = (jumpAt n k + 1) / 2 := by omega
    rw [hhalf] at hrec
    simp only [jumpAt_succ]
    omega

theorem jumpAt_eq_one_iff (hn : 2 ≤ n) (hk : k < rounds n) : jumpAt n k = 1 ↔ k + 1 = rounds n := by
  have h := clog_jumpAt hn hk
  have h1 := one_le_jumpAt (n := n) (by omega) k
  constructor
  · intro hJ
    rw [hJ, Nat.clog_one_right] at h
    omega
  · intro hk'
    by_contra hJ
    have := Nat.clog_pos (b := 2) (n := jumpAt n k) (by norm_num) (by omega)
    omega

theorem one_le_rounds (hn : 2 ≤ n) : 1 ≤ rounds n := Nat.clog_pos (by norm_num) hn

end Jump

section Blocks

variable {n p q k : Nat}

@[simp] theorem blockAt_zero : blockAt n p 0 = (0, n - 1) := rfl

@[simp] theorem blockAt_succ : blockAt n p (k + 1) = blockStep (jumpAt n k) p (blockAt n p k) := rfl

theorem blockStep_fst (J p : Nat) (blk : Nat × Nat) :
    (blockStep J p blk).1 = if blk.1 + J ≤ p then blk.1 + J else blk.1 := by
  unfold blockStep; split <;> rfl

theorem blockStep_snd (J p : Nat) (blk : Nat × Nat) :
    (blockStep J p blk).2 = if blk.1 + J ≤ p then blk.2 else min (blk.1 + J - 1) blk.2 := by
  unfold blockStep; split <;> rfl

/-- A block of position `p` holds `p`, lies in the line and spans at most two jumps. -/
structure Block (n p J : Nat) (blk : Nat × Nat) : Prop where
  first_le : blk.1 ≤ p
  le_last : p ≤ blk.2
  last_lt : blk.2 < n
  length_le : blk.2 + 1 ≤ blk.1 + 2 * J

/-- Splitting a block at `J` keeps `p` in it and leaves at most `J` positions. -/
theorem Block.step {J blk} (hb : Block n p J blk) (hJ : 1 ≤ J) :
    (blockStep J p blk).1 ≤ p ∧ p ≤ (blockStep J p blk).2 ∧ (blockStep J p blk).2 < n ∧
      (blockStep J p blk).2 + 1 ≤ (blockStep J p blk).1 + J := by
  have := hb.first_le; have := hb.le_last; have := hb.last_lt; have := hb.length_le
  rw [blockStep_fst, blockStep_snd]
  split <;> omega

theorem blockAt_block (hp : p < n) : ∀ k, Block n p (jumpAt n k) (blockAt n p k)
  | 0 => ⟨by simp, by simp; omega, by simp; omega, by simp; omega⟩
  | k + 1 => by
    have h := (blockAt_block hp k).step (one_le_jumpAt (by omega) k)
    have h2 : jumpAt n k ≤ 2 * jumpAt n (k + 1) := jumpAt_le_two_mul_succ
    rw [blockAt_succ]
    exact ⟨h.1, h.2.1, h.2.2.1, by omega⟩

/-- Each round shrinks the block: its start only moves right and its end only left. -/
theorem blockAt_succ_le :
    (blockAt n p k).1 ≤ (blockAt n p (k + 1)).1 ∧
      (blockAt n p (k + 1)).2 ≤ (blockAt n p k).2 := by
  rw [blockAt_succ, blockStep_fst, blockStep_snd]
  split <;> omega

/-- A position of `p`'s block has the same block: all positions of a block see it alike. -/
theorem blockAt_eq_of_mem (hn : 1 ≤ n) :
    ∀ {k}, (blockAt n p k).1 ≤ q → q ≤ (blockAt n p k).2 → blockAt n q k = blockAt n p k
  | 0, _, _ => rfl
  | k + 1, h1, h2 => by
    have hs := blockAt_succ_le (n := n) (p := p) (k := k)
    have ih := blockAt_eq_of_mem hn (k := k) (by omega) (by omega)
    have hJ := one_le_jumpAt hn k
    rw [blockAt_succ, blockStep_fst] at h1
    rw [blockAt_succ, blockStep_snd] at h2
    rw [blockAt_succ, blockAt_succ, ih]
    by_cases hp : (blockAt n p k).1 + jumpAt n k ≤ p
    · rw [if_pos hp] at h1
      simp [blockStep, hp, show (blockAt n p k).1 + jumpAt n k ≤ q by omega]
    · rw [if_neg hp] at h1 h2
      simp [blockStep, hp, show ¬(blockAt n p k).1 + jumpAt n k ≤ q by omega]

/-- Once `p` starts its block it keeps doing so. -/
theorem blockAt_fst_stays (hn : 1 ≤ n) {j : Nat} (h : (blockAt n p j).1 = p) :
    ∀ {k}, j ≤ k → (blockAt n p k).1 = p
  | k, hjk => by
    induction k, hjk using Nat.le_induction with
    | base => exact h
    | succ k _ ih =>
      have := one_le_jumpAt hn k
      rw [blockAt_succ, blockStep_fst, ih, if_neg (by omega)]

/-- After the last round every block is a single position. -/
theorem blockAt_rounds (hn : 2 ≤ n) (hp : p < n) : blockAt n p (rounds n) = (p, p) := by
  have hR := one_le_rounds hn
  have hJ : jumpAt n (rounds n - 1) = 1 :=
    (jumpAt_eq_one_iff hn (by omega)).mpr (by omega)
  obtain ⟨h1, h2, -, h4⟩ := (blockAt_block hp (rounds n - 1)).step (by omega)
  have hk : rounds n = rounds n - 1 + 1 := by omega
  rw [hk, blockAt_succ]
  ext <;> simp only <;> omega

end Blocks

section Moves

variable {n p q k : Nat}

theorem moveAt_send (h : moveAt n p k = .send q) :
    (blockAt n p k).1 = p ∧ jumpAt n k ≤ (blockAt n p k).2 - p ∧ q = p + jumpAt n k := by
  unfold moveAt at h
  split at h
  · rename_i hc
    cases h
    exact ⟨hc.1, hc.2, rfl⟩
  · split at h <;> cases h

theorem moveAt_recv (hn : 1 ≤ n) (h : moveAt n p k = .recv q) :
    p - (blockAt n p k).1 = jumpAt n k ∧ q = (blockAt n p k).1 := by
  have := one_le_jumpAt hn k
  unfold moveAt at h
  split at h
  · cases h
  · split at h
    · cases h; exact ⟨‹_›, by omega⟩
    · cases h

theorem moveAt_eq_recv (hn : 1 ≤ n) (h : p - (blockAt n p k).1 = jumpAt n k) :
    moveAt n p k = .recv (blockAt n p k).1 := by
  have := one_le_jumpAt hn k
  unfold moveAt
  rw [if_neg (by omega), if_pos h]
  congr 1; omega

/-- After round `k`, `p` starts its block when it did before or received in round `k`. -/
theorem blockAt_succ_fst_eq_iff (hp : p < n) :
    (blockAt n p (k + 1)).1 = p ↔ (blockAt n p k).1 = p ∨ p - (blockAt n p k).1 = jumpAt n k := by
  have h1 := (blockAt_block hp k).first_le
  have := one_le_jumpAt (n := n) (by omega) k
  rw [blockAt_succ, blockStep_fst]
  split <;> omega

/-- In round `k` a receiver starts the next block of its position. -/
theorem blockAt_succ_fst_of_recv (hn : 1 ≤ n) (h : moveAt n p k = .recv q) :
    (blockAt n p (k + 1)).1 = p ∧ (blockAt n p k).1 ≠ p := by
  obtain ⟨h1, -⟩ := moveAt_recv hn h
  have := one_le_jumpAt hn k
  rw [blockAt_succ, blockStep_fst]
  split <;> omega

/-- **Matching.** In every round, `p` sends to `q` exactly when `q` receives from `p`. -/
theorem moveAt_send_iff_recv (hn : 1 ≤ n) (hp : p < n) (hq : q < n) :
    moveAt n p k = .send q ↔ moveAt n q k = .recv p := by
  have hJ := one_le_jumpAt hn k
  constructor
  · intro h
    obtain ⟨ha, hJb, rfl⟩ := moveAt_send h
    have hqk := blockAt_eq_of_mem (p := p) (q := p + jumpAt n k) (k := k) hn (by omega)
      (by omega)
    rw [moveAt_eq_recv hn (by rw [hqk]; omega), hqk, ha]
  · intro h
    obtain ⟨h1, rfl⟩ := moveAt_recv hn h
    obtain ⟨hb1, hb2, -, -⟩ := blockAt_block hq k
    have hpk := blockAt_eq_of_mem (p := q) (q := (blockAt n q k).1) (k := k) hn le_rfl
      (by omega)
    unfold moveAt
    rw [hpk, if_pos ⟨rfl, by omega⟩]
    congr 1; omega

theorem moveAt_zero_ne_recv (hn : 1 ≤ n) : moveAt n 0 k ≠ .recv q := by
  intro h
  have := (blockAt_block (n := n) (p := 0) (by omega) k).first_le
  have := (moveAt_recv hn h).1
  have := one_le_jumpAt hn k
  omega

/-- A position that starts its block at round `k` but not at round `j ≤ k` received between. -/
theorem recv_of_fst_eq (hn : 1 ≤ n) {j : Nat} (h0 : (blockAt n p j).1 ≠ p) :
    ∀ {k}, j ≤ k → (blockAt n p k).1 = p → ∃ i, j ≤ i ∧ i < k ∧ ∃ r, moveAt n p i = .recv r
  | k, hjk, h => by
    induction k, hjk using Nat.le_induction with
    | base => exact absurd h h0
    | succ k hjk ih =>
      by_cases hk : (blockAt n p k).1 = p
      · obtain ⟨i, hi1, hi2, hr⟩ := ih hk
        exact ⟨i, hi1, by omega, hr⟩
      · refine ⟨k, hjk, by omega, _, moveAt_eq_recv hn ?_⟩
        have := one_le_jumpAt hn k
        rw [blockAt_succ, blockStep_fst] at h
        split at h <;> omega

/-- A holder other than the first position received the data in an earlier round. -/
theorem recv_before_of_holds (hn : 1 ≤ n) (hp : 0 < p) (h : (blockAt n p k).1 = p) :
    ∃ i < k, ∃ r, moveAt n p i = .recv r := by
  obtain ⟨i, -, hi, hr⟩ := recv_of_fst_eq hn (j := 0) (by simp; omega) (Nat.zero_le k) h
  exact ⟨i, hi, hr⟩

/-- Every position but the first receives, in one of the rounds. -/
theorem exists_recv (hn : 2 ≤ n) (hp : p < n) (hp0 : 0 < p) :
    ∃ k < rounds n, ∃ r, moveAt n p k = .recv r :=
  recv_before_of_holds (by omega) hp0 (by rw [blockAt_rounds hn hp])

theorem recv_unique (hn : 1 ≤ n) {k k' r r' : Nat} (h : moveAt n p k = .recv r)
    (h' : moveAt n p k' = .recv r') : k = k' := by
  have h1 := blockAt_succ_fst_of_recv hn h
  have h2 := blockAt_succ_fst_of_recv hn h'
  by_contra hne
  rcases Nat.lt_or_gt_of_ne hne with hlt | hlt
  · exact h2.2 (blockAt_fst_stays hn h1.1 hlt)
  · exact h1.2 (blockAt_fst_stays hn h2.1 hlt)

/-- A sender holds the data: it is the first position or received in an earlier round. -/
theorem send_after_recv (hn : 1 ≤ n) (h : moveAt n p k = .send q) :
    p = 0 ∨ ∃ i < k, ∃ r, moveAt n p i = .recv r := by
  rcases Nat.eq_zero_or_pos p with hp | hp
  · exact .inl hp
  · exact .inr (recv_before_of_holds hn hp (moveAt_send h).1)

/-- A receiver's peer holds the data: it is the first position or received in an earlier round. -/
theorem recv_from_holder (hn : 1 ≤ n) (hp : p < n) (h : moveAt n p k = .recv q) :
    q = 0 ∨ ∃ i < k, ∃ r, moveAt n q i = .recv r := by
  obtain ⟨h1, rfl⟩ := moveAt_recv hn h
  obtain ⟨hb1, hb2, -, -⟩ := blockAt_block hp k
  have hq := blockAt_eq_of_mem (p := p) (q := (blockAt n p k).1) (k := k) hn le_rfl (by omega)
  rcases Nat.eq_zero_or_pos (blockAt n p k).1 with h0 | h0
  · exact .inl h0
  · exact .inr (recv_before_of_holds hn h0 (by rw [hq]))

/-- Peers are other positions of the line: a send goes right, a receive comes from the left. -/
theorem moveAt_peer (hn : 1 ≤ n) (hp : p < n) :
    (moveAt n p k = .send q → p < q ∧ q < n) ∧ (moveAt n p k = .recv q → q < p) := by
  have hb := blockAt_block hp k
  have := one_le_jumpAt hn k
  constructor
  · intro h
    obtain ⟨-, h2, rfl⟩ := moveAt_send h
    have := hb.last_lt
    omega
  · intro h
    obtain ⟨h1, rfl⟩ := moveAt_recv hn h
    omega

end Moves

end Lci.BinomialTree
