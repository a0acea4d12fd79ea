import Lci.BinomialTree

/-! The binomial tree that `build_graph_tree` (broadcast) and `reduce_x` compute, each rank on its
own, with the same loop over `distance_left`, `distance_right` and `jump`. The loop is run on `int`:
each `+` and `-` wraps to 32 bits, `%` truncates toward zero. Relative to the root, rank `rank` is
position `(rank + nranks - root) % nranks` of the line of the binomial broadcast; `distance_left`
and `distance_right` are its distances to the ends of its block and `has_data` says it starts it.
While `nranks ≤ 2^30` no sum wraps and the loop computes the broadcast's moves; beyond, the
first sum `rank + nranks` overflows for the last ranks. -/

namespace Lci.Collective

open BinomialTree

/-- An `int` result wrapped to 32 bits in two's complement. -/
def wrap (x : Int) : Int := x.bmod (2 ^ 32)

/-- What one rank does in one round: send to or receive from a rank, or nothing. -/
inductive TreeAction
  | send (rank : Int)
  | recv (rank : Int)
  | none
  deriving DecidableEq, Repr

/-- The variables of the loop between two rounds. -/
structure TreeState where
  has_data : Bool
  distance_left : Int
  distance_right : Int
  jump : Int
  deriving DecidableEq, Repr

/-- The action of a round and `has_data` after it: send right when holding the data and a rank
`jump` to the right is in range, else receive when the holder on the left is `jump` away. -/
def round_action (nranks rank : Int) (s : TreeState) : TreeAction × Bool :=
  if s.has_data && decide (s.jump ≤ s.distance_right) then
    (.send ((wrap (rank + s.jump)).tmod nranks), s.has_data)
  else if s.distance_left = s.jump then
    (.recv ((wrap (wrap (rank - s.jump) + nranks)).tmod nranks), true)
  else (.none, s.has_data)

/-- The distances after a round: the holder on the left (or this rank) sent `jump` to its right. -/
def update_distances (s : TreeState) : Int × Int :=
  if s.distance_left ≥ s.jump then (wrap (s.distance_left - s.jump), s.distance_right)
  else (s.distance_left, min (wrap (wrap (s.jump - s.distance_left) - 1)) s.distance_right)

/-- The loop's variables after a round. -/
def next_state (nranks rank : Int) (s : TreeState) : TreeState where
  has_data := (round_action nranks rank s).2
  distance_left := (update_distances s).1
  distance_right := (update_distances s).2
  jump := (s.jump + 1) / 2

/-- The `while (true)` loop: one action per round, up to the round with `jump == 1`, after which
`jump = std::ceil(jump / 2.0)`; `fuel` bounds the rounds. -/
def tree_loop (nranks rank : Int) : Nat → TreeState → List TreeAction
  | 0, _ => []
  | fuel + 1, s =>
    (round_action nranks rank s).1 ::
      if s.jump = 1 then [] else tree_loop nranks rank fuel (next_state nranks rank s)

/-- The loop's variables before the first round. -/
def tree_start (nranks root rank : Int) : TreeState where
  has_data := rank = root
  distance_left := (wrap (wrap (rank + nranks) - root)).tmod nranks
  distance_right := (wrap (wrap (wrap (root - 1) - rank) + nranks)).tmod nranks
  jump := (nranks + 1) / 2

/-- The actions of `rank`, round by round, in the tree rooted at `root`. A first jump of at most
`2^30` takes at most 31 rounds, so 32 rounds of fuel cover every `int` number of ranks. -/
def build_tree (nranks root rank : Int) : List TreeAction :=
  tree_loop nranks rank 32 (tree_start nranks root rank)

/-! ### The broadcast's moves as ranks

The moves of `BinomialTree` with positions turned into ranks: the refinement below shows that
the loop computes them, and the spanning tree of `build_tree_spanning` is read off them. -/

/-- The position of `rank` on the line that starts at `root`. -/
def posOf (n root rank : Nat) : Nat := (rank + n - root) % n

/-- The rank at position `q` of the line that starts at `root`. -/
def rankOf (n root q : Nat) : Int := ((q + root) % n : Nat)

/-- A move of the broadcast with its peer given as a rank. -/
def actionOf (n root : Nat) : Move → TreeAction
  | .send q => .send (rankOf n root q)
  | .recv q => .recv (rankOf n root q)
  | .none => .none

/-- The actions of `rank` that the broadcast over the line from `root` prescribes. -/
def schedule (n root rank : Nat) : List TreeAction :=
  (List.range (rounds n)).map fun k => actionOf n root (moveAt n (posOf n root rank) k)

/-- The per-rank action lists `acts` of `n` ranks form a binomial spanning tree rooted at
`root`, as `reduce_x` and the broadcast need it. -/
structure SpanningTree (n root : Nat) (acts : Nat → List TreeAction) : Prop where
  /-- Every rank's loop runs `⌈log₂ n⌉` rounds, the size of `actions_per_round`. -/
  length_eq : ∀ a < n, (acts a).length = Nat.clog 2 n
  /-- In every round, `a` sends to `b` exactly when `b` receives from `a`. -/
  matching : ∀ a < n, ∀ b < n, ∀ k : Nat,
    (acts a)[k]? = some (TreeAction.send (b : Int)) ↔ (acts b)[k]? = some (TreeAction.recv (a : Int))
  /-- A peer is a rank in range other than the rank itself. -/
  peer_ne : ∀ a < n, ∀ (k : Nat) (x : Int),
    ((acts a)[k]? = some (TreeAction.send x) ∨ (acts a)[k]? = some (TreeAction.recv x)) → ∃ b < n, x = b ∧ b ≠ a
  /-- The root never receives. -/
  root_no_recv : ∀ (k : Nat) (x : Int), (acts root)[k]? ≠ some (TreeAction.recv x)
  /-- Every other rank receives, from the root or from a rank that received in an earlier round. -/
  recv_from_holder : ∀ b < n, b ≠ root → ∃ k : Nat, ∃ a < n,
    (acts b)[k]? = some (TreeAction.recv (a : Int)) ∧ (a = root ∨ ∃ i < k, ∃ c : Int, (acts a)[i]? = some (TreeAction.recv c))
  /-- A rank receives in one round at most. -/
  recv_once : ∀ b < n, ∀ (k k' : Nat) (x y : Int),
    (acts b)[k]? = some (TreeAction.recv x) → (acts b)[k']? = some (TreeAction.recv y) → k = k'
  /-- A rank other than the root sends only in rounds after the one it received in. -/
  send_after_recv : ∀ b < n, b ≠ root → ∀ (k : Nat) (x : Int),
    (acts b)[k]? = some (TreeAction.send x) → ∃ i < k, ∃ c : Int, (acts b)[i]? = some (TreeAction.recv c)

/-- The loop's variables that the block of position `p` gives before round `k`. -/
def TreeState.ofBlock (n p k : Nat) : TreeState where
  has_data := (blockAt n p k).1 = p
  distance_left := (p - (blockAt n p k).1 : Nat)
  distance_right := ((blockAt n p k).2 - p : Nat)
  jump := jumpAt n k

section Arith

theorem wrap_of_bounds {x : Int} (h1 : -2 ^ 31 ≤ x) (h2 : x < 2 ^ 31) : wrap x = x :=
  Int.bmod_eq_of_le (by omega) (by omega)

variable {n root rank q : Nat}

theorem posOf_lt (hn : 0 < n) : posOf n root rank < n := Nat.mod_lt _ hn

theorem posOf_cases (hr : root < n) (hrank : rank < n) :
    (root ≤ rank ∧ posOf n root rank = rank - root) ∨
      (rank < root ∧ posOf n root rank = rank + n - root) := by
  unfold posOf
  rcases Nat.lt_or_ge rank root with h | h
  · exact .inr ⟨h, Nat.mod_eq_of_lt (by omega)⟩
  · refine .inl ⟨h, ?_⟩
    rw [show rank + n - root = rank - root + n by omega, Nat.add_mod_right,
      Nat.mod_eq_of_lt (by omega)]

theorem rankOf_posOf (hr : root < n) (hrank : rank < n) :
    rankOf n root (posOf n root rank) = rank := by
  unfold rankOf
  rcases posOf_cases hr hrank with ⟨h, hp⟩ | ⟨h, hp⟩
  · rw [hp, show rank - root + root = rank by omega, Nat.mod_eq_of_lt hrank]
  · rw [hp, show rank + n - root + root = rank + n by omega, Nat.add_mod_right,
      Nat.mod_eq_of_lt hrank]

theorem posOf_rankOf (hr : root < n) (hq : q < n) : posOf n root ((q + root) % n) = q := by
  unfold posOf
  rcases Nat.lt_or_ge (q + root) n with h | h
  · rw [Nat.mod_eq_of_lt h, show q + root + n - root = q + n by omega, Nat.add_mod_right,
      Nat.mod_eq_of_lt hq]
  · have hm : (q + root) % n = q + root - n := by
      rw [Nat.mod_eq_sub_mod h, Nat.mod_eq_of_lt (by omega)]
    rw [hm, show q + root - n + n - root = q by omega, Nat.mod_eq_of_lt hq]

theorem posOf_self : posOf n root root = 0 := by
  simp [posOf]

theorem rankOf_nonneg : 0 ≤ rankOf n root q := Int.natCast_nonneg _

theorem rankOf_lt (hn : 0 < n) : rankOf n root q < n := by
  unfold rankOf
  exact_mod_cast Nat.mod_lt _ hn

theorem rankOf_eq_iff (hr : root < n) (hq : q < n) (hrank : rank < n) :
    rankOf n root q = rank ↔ q = posOf n root rank := by
  constructor
  · intro h
    have h' : (q + root) % n = rank := by unfold rankOf at h; exact_mod_cast h
    rw [← h', posOf_rankOf hr hq]
  · rintro rfl
    exact rankOf_posOf hr hrank

/-- `(rank + jump) % nranks` is the rank `jump` positions on. -/
theorem send_rank_eq {p J : Nat} :
    ((rankOf n root p + J) % n : Int) = rankOf n root (p + J) := by
  unfold rankOf
  rw [show p + J + root = p + root + J by omega]
  exact_mod_cast (Nat.mod_add_mod (p + root) n J)

/-- `(rank - jump + nranks) % nranks` is the rank `jump` positions back. -/
theorem recv_rank_eq {p J : Nat} (hJ : J ≤ p) :
    ((rankOf n root p - J + n) % n : Int) = rankOf n root (p - J) := by
  unfold rankOf
  have hmod : (((p + root) % n : Nat) : Int) ≡ ((p + root : Nat) : Int) [ZMOD n] := by
    exact_mod_cast Nat.mod_modEq (p + root) n
  have h : (((p + root) % n : Nat) : Int) - J + n ≡ ((p - J + root : Nat) : Int) [ZMOD n] :=
    calc (((p + root) % n : Nat) : Int) - J + n
        ≡ ((p + root : Nat) : Int) - J + n [ZMOD n] := (hmod.sub_right _).add_right _
      _ ≡ ((p + root : Nat) : Int) - J [ZMOD n] := Int.add_modEq_right
      _ = ((p - J + root : Nat) : Int) := by push_cast [hJ]; ring
  rw [h.eq, Int.natCast_mod]

end Arith

section Refinement

variable {n root p k : Nat}

@[simp] theorem ofBlock_has_data :
    (TreeState.ofBlock n p k).has_data = decide ((blockAt n p k).1 = p) := rfl

@[simp] theorem ofBlock_distance_left :
    (TreeState.ofBlock n p k).distance_left = ((p - (blockAt n p k).1 : Nat) : Int) := rfl

@[simp] theorem ofBlock_distance_right :
    (TreeState.ofBlock n p k).distance_right = (((blockAt n p k).2 - p : Nat) : Int) := rfl

@[simp] theorem ofBlock_jump : (TreeState.ofBlock n p k).jump = (jumpAt n k : Int) := rfl

theorem ofBlock_sends_iff :
    ((TreeState.ofBlock n p k).has_data &&
        decide ((TreeState.ofBlock n p k).jump ≤ (TreeState.ofBlock n p k).distance_right)) =
      true ↔ (blockAt n p k).1 = p ∧ jumpAt n k ≤ (blockAt n p k).2 - p := by
  simp

theorem ofBlock_recvs_iff :
    (TreeState.ofBlock n p k).distance_left = (TreeState.ofBlock n p k).jump ↔
      p - (blockAt n p k).1 = jumpAt n k := by
  simp

/-- The rank sent to: `rank + jump` stays below `2^31` while `n ≤ 2^30`. -/
theorem send_target_eq {J : Nat} (hn' : n ≤ 2 ^ 30) (hn : 0 < n) (hJ : J ≤ n) :
    (wrap (rankOf n root p + J)).tmod n = rankOf n root (p + J) := by
  have : 0 ≤ rankOf n root p := rankOf_nonneg
  have : rankOf n root p < n := rankOf_lt hn
  rw [wrap_of_bounds (by omega) (by omega), Int.tmod_eq_emod_of_nonneg (by omega), send_rank_eq]

/-- The rank received from: `rank - jump + nranks` stays below `2^31` while `n ≤ 2^30`. -/
theorem recv_target_eq {J : Nat} (hn' : n ≤ 2 ^ 30) (hn : 0 < n) (hJ : J ≤ n) (hJp : J ≤ p) :
    (wrap (wrap (rankOf n root p - J) + n)).tmod n = rankOf n root (p - J) := by
  have : 0 ≤ rankOf n root p := rankOf_nonneg
  have : rankOf n root p < n := rankOf_lt hn
  rw [wrap_of_bounds (x := rankOf n root p - J) (by omega) (by omega),
    wrap_of_bounds (by omega) (by omega), Int.tmod_eq_emod_of_nonneg (by omega),
    recv_rank_eq hJp]

/-- **One round.** From the state its block gives, a round takes the broadcast's move. -/
theorem round_action_ofBlock (hn' : n ≤ 2 ^ 30) (hp : p < n) :
    round_action n (rankOf n root p) (TreeState.ofBlock n p k) =
      (actionOf n root (moveAt n p k), decide ((blockAt n p (k + 1)).1 = p)) := by
  have hJ := one_le_jumpAt (n := n) (by omega) k
  have hJn := jumpAt_le (n := n) k
  have h1 := (blockAt_block hp k).first_le
  simp only [blockAt_succ_fst_eq_iff hp]
  unfold round_action moveAt
  by_cases hs : (blockAt n p k).1 = p ∧ jumpAt n k ≤ (blockAt n p k).2 - p
  · rw [if_pos (ofBlock_sends_iff.mpr hs), if_pos hs, ofBlock_jump,
      send_target_eq hn' (by omega) hJn]
    simp [actionOf, hs.1]
  · rw [if_neg (mt ofBlock_sends_iff.mp hs), if_neg hs]
    by_cases hr : p - (blockAt n p k).1 = jumpAt n k
    · rw [if_pos (ofBlock_recvs_iff.mpr hr), if_pos hr, ofBlock_jump,
        recv_target_eq hn' (by omega) hJn (by omega)]
      simp [actionOf, hr]
    · rw [if_neg (mt ofBlock_recvs_iff.mp hr), if_neg hr]
      simp [actionOf, hr]

/-- **One round, the distances.** The distances after a round are those of the next block. -/
theorem update_distances_ofBlock (hn' : n ≤ 2 ^ 30) (hp : p < n) :
    update_distances (TreeState.ofBlock n p k) =
      ((TreeState.ofBlock n p (k + 1)).distance_left,
        (TreeState.ofBlock n p (k + 1)).distance_right) := by
  have hJ := one_le_jumpAt (n := n) (by omega) k
  have hJn := jumpAt_le (n := n) k
  obtain ⟨h1, h2, h3, -⟩ := blockAt_block hp k
  unfold update_distances
  by_cases h : (blockAt n p k).1 + jumpAt n k ≤ p
  · rw [if_pos (by simp only [ofBlock_distance_left, ofBlock_jump]; omega)]
    simp only [ofBlock_distance_left, ofBlock_distance_right, ofBlock_jump, blockAt_succ,
      blockStep_fst, blockStep_snd, h, if_true]
    rw [wrap_of_bounds (by omega) (by omega)]
    exact Prod.ext (by simp only; omega) rfl
  · rw [if_neg (by simp only [ofBlock_distance_left, ofBlock_jump]; omega)]
    simp only [ofBlock_distance_left, ofBlock_distance_right, ofBlock_jump, blockAt_succ,
      blockStep_fst, blockStep_snd, h, if_false]
    rw [wrap_of_bounds (x := (jumpAt n k : Int) - _) (by omega) (by omega),
      wrap_of_bounds (by omega) (by omega)]
    exact Prod.ext rfl (by simp only; omega)

theorem next_state_ofBlock (hn' : n ≤ 2 ^ 30) (hp : p < n) :
    next_state n (rankOf n root p) (TreeState.ofBlock n p k) = TreeState.ofBlock n p (k + 1) := by
  unfold next_state
  rw [round_action_ofBlock hn' hp, update_distances_ofBlock hn' hp]
  simp only [jumpAt_succ, TreeState.ofBlock]
  congr 1

/-- **The loop.** From round `k` on, with fuel for the rounds left, the loop takes the
broadcast's moves of the remaining rounds. -/
theorem tree_loop_ofBlock (hn : 2 ≤ n) (hn' : n ≤ 2 ^ 30) (hp : p < n) :
    ∀ {k fuel}, k < rounds n → rounds n ≤ k + fuel →
      tree_loop n (rankOf n root p) fuel (TreeState.ofBlock n p k) =
        (List.range' k (rounds n - k)).map fun j => actionOf n root (moveAt n p j)
  | _, 0, hk, hf => by omega
  | k, fuel + 1, hk, hf => by
    rw [tree_loop, round_action_ofBlock hn' hp]
    by_cases hJ : jumpAt n k = 1
    · have hlast := (jumpAt_eq_one_iff hn hk).mp hJ
      rw [show rounds n - k = 1 by omega, if_pos (by simp [hJ])]
      rfl
    · have hnext : k + 1 < rounds n := by
        have := (jumpAt_eq_one_iff hn hk).not.mp hJ
        omega
      rw [if_neg (by simpa using hJ), next_state_ofBlock hn' hp,
        tree_loop_ofBlock hn hn' hp hnext (by omega),
        show rounds n - k = rounds n - (k + 1) + 1 by omega, List.range'_succ]
      rfl

/-- The loop's variables before the first round are those of the whole line. -/
theorem tree_start_ofBlock {rank : Nat} (hn' : n ≤ 2 ^ 30) (hr : root < n) (hrank : rank < n) :
    tree_start n root rank = TreeState.ofBlock n (posOf n root rank) 0 := by
  have hpos := posOf_cases (n := n) hr hrank
  unfold tree_start TreeState.ofBlock
  simp only [blockAt_zero, jumpAt_zero, Nat.sub_zero, TreeState.mk.injEq]
  refine ⟨?_, ?_, ?_, ?_⟩
  · have : (rank : Int) = root ↔ 0 = posOf n root rank := by
      rcases hpos with ⟨h, hp⟩ | ⟨h, hp⟩ <;> omega
    exact decide_eq_decide.mpr this
  · rw [wrap_of_bounds (x := (rank : Int) + n) (by omega) (by omega),
      wrap_of_bounds (by omega) (by omega), Int.tmod_eq_emod_of_nonneg (by omega)]
    rcases hpos with ⟨h, hp⟩ | ⟨h, hp⟩
    · rw [hp, show (rank : Int) + n - root = ((rank - root : Nat) : Int) + n by omega,
        Int.add_emod_right, Int.emod_eq_of_lt (by omega) (by omega)]
    · rw [hp, Int.emod_eq_of_lt (by omega) (by omega)]
      omega
  · rw [wrap_of_bounds (x := (root : Int) - 1) (by omega) (by omega),
      wrap_of_bounds (x := (root : Int) - 1 - rank) (by omega) (by omega),
      wrap_of_bounds (by omega) (by omega), Int.tmod_eq_emod_of_nonneg (by omega)]
    rcases hpos with ⟨h, hp⟩ | ⟨h, hp⟩
    · rw [hp, Int.emod_eq_of_lt (by omega) (by omega)]
      omega
    · rw [hp, show (root : Int) - 1 - rank + n = ((root - 1 - rank : Nat) : Int) + n by omega,
        Int.add_emod_right, Int.emod_eq_of_lt (by omega) (by omega)]
      omega
  · omega

/-- **Refinement.** While `n ≤ 2^30`, the loop of every rank computes, round by round, the moves
of the binomial broadcast over the line that starts at `root`. -/
theorem build_tree_eq_schedule {rank : Nat} (hn : 2 ≤ n) (hn' : n ≤ 2 ^ 30) (hr : root < n)
    (hrank : rank < n) : build_tree n root rank = schedule n root rank := by
  have hR := one_le_rounds hn
  have hR' : rounds n ≤ 30 := Nat.clog_le_of_le_pow (by simpa using hn')
  unfold build_tree schedule
  rw [tree_start_ofBlock hn' hr hrank]
  conv_lhs => rw [← rankOf_posOf hr hrank]
  rw [tree_loop_ofBlock hn hn' (posOf_lt (by omega)) (by omega) (by omega), Nat.sub_zero,
    List.range_eq_range']

end Refinement

section Spanning

variable {n root a b k : Nat}

theorem actionOf_eq_send {m : Move} {x : Int} :
    actionOf n root m = .send x ↔ ∃ q, m = .send q ∧ rankOf n root q = x := by
  cases m <;> simp [actionOf]

theorem actionOf_eq_recv {m : Move} {x : Int} :
    actionOf n root m = .recv x ↔ ∃ q, m = .recv q ∧ rankOf n root q = x := by
  cases m <;> simp [actionOf]

theorem schedule_getElem? :
    (schedule n root a)[k]? =
      if k < rounds n then some (actionOf n root (moveAt n (posOf n root a) k)) else none := by
  unfold schedule
  by_cases hk : k < rounds n <;> simp [hk]

theorem schedule_eq_send {x : Int} : (schedule n root a)[k]? = some (.send x) ↔
    k < rounds n ∧ ∃ q, moveAt n (posOf n root a) k = .send q ∧ rankOf n root q = x := by
  rw [schedule_getElem?]
  split <;> simp [*, actionOf_eq_send]

theorem schedule_eq_recv {x : Int} : (schedule n root a)[k]? = some (.recv x) ↔
    k < rounds n ∧ ∃ q, moveAt n (posOf n root a) k = .recv q ∧ rankOf n root q = x := by
  rw [schedule_getElem?]
  split <;> simp [*, actionOf_eq_recv]

/-- A send to rank `b` is the move to `b`'s position. -/
theorem schedule_eq_send_rank (hr : root < n) (hb : b < n) :
    (schedule n root a)[k]? = some (.send (b : Int)) ↔
      k < rounds n ∧ moveAt n (posOf n root a) k = .send (posOf n root b) := by
  rw [schedule_eq_send]
  refine and_congr_right fun _ => ⟨?_, fun h => ⟨_, h, rankOf_posOf hr hb⟩⟩
  rintro ⟨q, hq, hqb⟩
  have hlt := ((moveAt_peer (by omega) (posOf_lt (by omega))).1 hq).2
  rwa [← (rankOf_eq_iff hr hlt hb).mp hqb]

/-- A receive from rank `a` is the move from `a`'s position. -/
theorem schedule_eq_recv_rank (hr : root < n) (ha : a < n) :
    (schedule n root b)[k]? = some (.recv (a : Int)) ↔
      k < rounds n ∧ moveAt n (posOf n root b) k = .recv (posOf n root a) := by
  rw [schedule_eq_recv]
  refine and_congr_right fun _ => ⟨?_, fun h => ⟨_, h, rankOf_posOf hr ha⟩⟩
  rintro ⟨q, hq, hqa⟩
  have hpb : posOf n root b < n := posOf_lt (by omega)
  have hlt := (moveAt_peer (by omega) hpb).2 hq
  rwa [← (rankOf_eq_iff hr (by omega) ha).mp hqa]

theorem posOf_ne_zero (hr : root < n) (hb : b < n) (hne : b ≠ root) : posOf n root b ≠ 0 := by
  intro h
  have := rankOf_posOf hr hb
  rw [h, rankOf, Nat.zero_add, Nat.mod_eq_of_lt hr] at this
  exact hne (by exact_mod_cast this.symm)

/-- **The broadcast's moves, as ranks, form the spanning tree.** -/
theorem schedule_spanning (hn : 2 ≤ n) (hr : root < n) : SpanningTree n root (schedule n root) where
  length_eq a _ := by simp [schedule, rounds]
  matching a ha b hb k := by
    rw [schedule_eq_send_rank hr hb, schedule_eq_recv_rank hr ha,
      moveAt_send_iff_recv (by omega) (posOf_lt (by omega)) (posOf_lt (by omega))]
  peer_ne a ha k x h := by
    have hp : posOf n root a < n := posOf_lt (by omega)
    obtain ⟨q, hq, hne, hx⟩ : ∃ q, q < n ∧ q ≠ posOf n root a ∧ rankOf n root q = x := by
      rcases h with h | h
      · obtain ⟨-, q, hq, hx⟩ := schedule_eq_send.mp h
        have := (moveAt_peer (by omega) hp).1 hq
        exact ⟨q, this.2, by omega, hx⟩
      · obtain ⟨-, q, hq, hx⟩ := schedule_eq_recv.mp h
        have := (moveAt_peer (by omega) hp).2 hq
        exact ⟨q, by omega, by omega, hx⟩
    refine ⟨(q + root) % n, Nat.mod_lt _ (by omega), hx.symm, fun heq => hne ?_⟩
    exact (rankOf_eq_iff hr hq ha).mp (by rw [rankOf, heq])
  root_no_recv k x h := by
    obtain ⟨-, q, hq, -⟩ := schedule_eq_recv.mp h
    rw [posOf_self] at hq
    exact moveAt_zero_ne_recv (by omega) hq
  recv_from_holder b hb hne := by
    have hp : posOf n root b < n := posOf_lt (by omega)
    obtain ⟨k, hk, r, hrecv⟩ := exists_recv hn hp (Nat.pos_of_ne_zero (posOf_ne_zero hr hb hne))
    have hrp := (moveAt_peer (by omega) hp).2 hrecv
    have hpos : posOf n root ((r + root) % n) = r := posOf_rankOf hr (by omega)
    refine ⟨k, (r + root) % n, Nat.mod_lt _ (by omega), schedule_eq_recv.mpr ⟨hk, r, hrecv, rfl⟩,
      ?_⟩
    rcases BinomialTree.recv_from_holder (by omega) hp hrecv with h0 | ⟨i, hi, r', hr'⟩
    · left
      rw [h0, Nat.zero_add, Nat.mod_eq_of_lt hr]
    · right
      exact ⟨i, hi, _, schedule_eq_recv.mpr ⟨by omega, r', by rw [hpos]; exact hr', rfl⟩⟩
  recv_once b hb k k' x y h h' := by
    obtain ⟨-, q, hq, -⟩ := schedule_eq_recv.mp h
    obtain ⟨-, q', hq', -⟩ := schedule_eq_recv.mp h'
    exact recv_unique (by omega) hq hq'
  send_after_recv b hb hne k x h := by
    obtain ⟨hk, q, hq, -⟩ := schedule_eq_send.mp h
    rcases BinomialTree.send_after_recv (by omega) hq with h0 | ⟨i, hi, r, hr'⟩
    · exact absurd h0 (posOf_ne_zero hr hb hne)
    · exact ⟨i, hi, _, schedule_eq_recv.mpr ⟨by omega, r, hr', rfl⟩⟩

/-- The spanning tree only looks at the lists of ranks in range. -/
theorem SpanningTree.congr {acts acts' : Nat → List TreeAction} (hr : root < n)
    (h : ∀ a < n, acts a = acts' a) (hs : SpanningTree n root acts) :
    SpanningTree n root acts' where
  length_eq a ha := h a ha ▸ hs.length_eq a ha
  matching a ha b hb k := by
    rw [← h a ha, ← h b hb]
    exact hs.matching a ha b hb k
  peer_ne a ha k x := by
    rw [← h a ha]
    exact hs.peer_ne a ha k x
  root_no_recv k x := by
    rw [← h root hr]
    exact hs.root_no_recv k x
  recv_from_holder b hb hne := by
    obtain ⟨k, a, ha, h1, h2⟩ := hs.recv_from_holder b hb hne
    refine ⟨k, a, ha, by rw [← h b hb]; exact h1, ?_⟩
    rw [← h a ha]
    exact h2
  recv_once b hb k k' x y := by
    rw [← h b hb]
    exact hs.recv_once b hb k k' x y
  send_after_recv b hb hne k x := by
    rw [← h b hb]
    exact hs.send_after_recv b hb hne k x

end Spanning

/-- **The loop builds a binomial spanning tree.** For `2 ≤ n ≤ 2^30` ranks and a root in range,
the action lists that the loop of `build_graph_tree` and `reduce_x` computes on every rank form a
spanning tree rooted at `root`, with `⌈log₂ n⌉` rounds. -/
theorem build_tree_spanning (n root : Nat) (hn : 2 ≤ n) (hn' : n ≤ 2 ^ 30) (hr : root < n) :
    SpanningTree n root fun rank => build_tree n root rank :=
  (schedule_spanning hn hr).congr hr fun _ ha => (build_tree_eq_schedule hn hn' hr ha).symm

theorem build_tree_spanning_five : SpanningTree 5 2 fun rank => build_tree 5 2 rank :=
  build_tree_spanning 5 2 (by decide) (by decide) (by decide)

/-- With `2^30 + 1` ranks the tree is broken: `rank + nranks` overflows for rank `2^30`, whose
`distance_left` comes out negative, so it never receives, although rank `2^30 - 2` sends to it in
round 29. -/
theorem build_tree_overflow :
    ¬SpanningTree (2 ^ 30 + 1) 0 fun rank => build_tree (2 ^ 30 + 1) 0 rank := by
  intro h
  -- rank `2^30 - 2` sends in round 29, but rank `2^30` does nothing in that round
  have hrecv := (h.matching (2 ^ 30 - 2) (by norm_num) (2 ^ 30) (by norm_num) 29).mp (by decide)
  revert hrecv
  decide

end Lci.Collective
