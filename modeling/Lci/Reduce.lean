import Lci.Collective

/-! The binomial-tree reduce (`reduce_x`). Every rank computes its actions of the broadcast tree
rooted at `root` with the loop of `Collective.build_tree`, counts its children, picks its
`tmp_buffer` and `data_buffer`, and replays the rounds from the last one down with the direction
of every message reversed: where the broadcast sends to a child, the reduce receives from it into
`tmp_buffer` and combines it with `op` into `data_buffer`; where the broadcast receives from the
parent, the reduce sends its partial result to the parent and stops. Sends and receives are
blocking (`COMP_NULL`).

A buffer's contents are a value of a commutative semigroup: `op` combines `count` items one by
one, so the items of a buffer are such a value with the product taken item-wise. The buffers are
places in memory; `in_place` is `sendbuf == recvbuf`. -/

namespace Lci.Reduce

open Collective

/-- The buffers `reduce_x` touches: the user's `sendbuf` and `recvbuf` (the same place when in
place) and the two it may `malloc`. -/
inductive Loc
  | sendbuf
  | recvbuf
  | tmp_malloc
  | data_malloc
  deriving DecidableEq, Repr

/-- `tmp_buffer` and `data_buffer` as `reduce_x` chooses them. The root combines into `recvbuf`
and receives there too when it has one child and `recvbuf` is not `sendbuf`; a non-root rank
with one child receives and combines in one buffer. -/
def buffers (is_root : Bool) (nchildren : Nat) (in_place : Bool) : Loc × Loc :=
  if is_root then
    let recvbuf_at := if in_place then Loc.sendbuf else Loc.recvbuf
    if nchildren = 1 ∧ in_place = false then (recvbuf_at, recvbuf_at)
    else (.tmp_malloc, recvbuf_at)
  else if nchildren = 1 then (.tmp_malloc, .tmp_malloc)
  else (.tmp_malloc, .data_malloc)

variable {α : Type} [CommSemigroup α]

/-- The replay from the last round down, after `has_received`; `incoming c` is what child `c`
sends. A broadcast receive becomes the send of `data_buffer` (or of `sendbuf` before any receive)
to the parent, after which the loop breaks; a broadcast send becomes the receive from the child
into `tmp_buffer` and `op(tmp_buffer, right_buffer, data_buffer)`, with `right_buffer` the
`sendbuf` at the first receive and `data_buffer` after. -/
def replay (tmp data : Loc) (incoming : Int → α) :
    List TreeAction → Bool → (Loc → α) → (Loc → α) × Option (Int × α)
  | [], _, mem => (mem, none)
  | .none :: rest, has_received, mem => replay tmp data incoming rest has_received mem
  | .recv target :: _, has_received, mem =>
    (mem, some (target, mem (if has_received then data else .sendbuf)))
  | .send target :: rest, has_received, mem =>
    let mem' := Function.update mem tmp (incoming target)
    let right_buffer := if has_received then data else Loc.sendbuf
    replay tmp data incoming rest true
      (Function.update mem' data (mem' tmp * mem' right_buffer))

/-- The number of children: the broadcast's sends. -/
def nchildren (acts : List TreeAction) : Nat :=
  acts.countP fun a => match a with
    | .send _ => true
    | _ => false

/-- `reduce_x` at `rank` of `nranks`: the memory after it and the message it sends, if any. With
one rank it copies `sendbuf` to `recvbuf` unless they are the same. -/
def reduce_x (nranks root rank : Nat) (in_place : Bool) (incoming : Int → α) (mem : Loc → α) :
    (Loc → α) × Option (Int × α) :=
  if nranks = 1 then
    (if in_place then mem else Function.update mem .recvbuf (mem .sendbuf), none)
  else
    let acts := build_tree nranks root rank
    let bufs := buffers (rank = root) (nchildren acts) in_place
    replay bufs.1 bufs.2 incoming acts.reverse false mem

/-! ### What the replay computes -/

/-- The partial result along a replay, from `acc`: each child's value combined on the left, up
to the broadcast receive, whose peer is the parent. -/
def combine (incoming : Int → α) : List TreeAction → α → α × Option Int
  | [], acc => (acc, none)
  | .none :: rest, acc => combine incoming rest acc
  | .recv target :: _, acc => (acc, some target)
  | .send target :: rest, acc => combine incoming rest (incoming target * acc)

@[simp] theorem nchildren_nil : nchildren ([] : List TreeAction) = 0 := rfl

@[simp] theorem nchildren_cons_send (t : Int) (l : List TreeAction) :
    nchildren (.send t :: l) = nchildren l + 1 := by
  simp [nchildren]

@[simp] theorem nchildren_cons_recv (t : Int) (l : List TreeAction) :
    nchildren (.recv t :: l) = nchildren l := by
  simp [nchildren]

@[simp] theorem nchildren_cons_none (l : List TreeAction) :
    nchildren (.none :: l) = nchildren l := by
  simp [nchildren]

theorem nchildren_pos_iff {l : List TreeAction} : 0 < nchildren l ↔ ∃ t, .send t ∈ l := by
  unfold nchildren
  rw [List.countP_pos_iff]
  constructor
  · rintro ⟨a, ha, h⟩
    cases a <;> simp at h
    exact ⟨_, ha⟩
  · rintro ⟨t, ht⟩
    exact ⟨_, ht, rfl⟩

/-- **The buffers never clobber the partial result.** When `tmp_buffer` is not `sendbuf`, and is
`data_buffer` only for at most one receive, the replay sends the parent the partial result of
`combine`, leaves every other buffer alone, and ends with the result in `data_buffer` once it has
received. -/
theorem replay_spec {tmp data : Loc} (incoming : Int → α) (hts : tmp ≠ .sendbuf) :
    ∀ (l : List TreeAction) (has_received : Bool) (mem : Loc → α),
      (tmp = data → (if has_received then 1 else 0) + nchildren l ≤ 1) →
      (replay tmp data incoming l has_received mem).2 =
          (combine incoming l (mem (if has_received then data else .sendbuf))).2.map
            (fun p => (p, (combine incoming l (mem (if has_received then data else .sendbuf))).1)) ∧
        (∀ loc, loc ≠ tmp → loc ≠ data → (replay tmp data incoming l has_received mem).1 loc = mem loc) ∧
        ((combine incoming l (mem (if has_received then data else .sendbuf))).2 = none →
          (has_received = true ∨ 0 < nchildren l) →
          (replay tmp data incoming l has_received mem).1 data =
            (combine incoming l (mem (if has_received then data else .sendbuf))).1)
  | [], has_received, mem, _ => by
    refine ⟨rfl, fun _ _ _ => rfl, fun _ h => ?_⟩
    rcases h with h | h
    · simp [replay, combine, h]
    · simp at h
  | .none :: rest, has_received, mem, htd => by
    simp only [nchildren_cons_none] at htd
    exact replay_spec incoming hts rest has_received mem htd
  | .recv target :: rest, has_received, mem, _ => by
    refine ⟨rfl, fun _ _ _ => rfl, fun h _ => ?_⟩
    simp [combine] at h
  | .send target :: rest, has_received, mem, htd => by
    simp only [nchildren_cons_send] at htd
    -- the right operand is `sendbuf` or, after a first receive, `data_buffer`: never `tmp_buffer`
    have hright : (if has_received then data else Loc.sendbuf) ≠ tmp := by
      cases has_received
      · exact hts.symm
      · intro h
        have := htd h.symm
        simp at this
    have ih := replay_spec incoming hts rest true
      (Function.update (Function.update mem tmp (incoming target)) data
        (incoming target * mem (if has_received then data else .sendbuf)))
      (fun h => by
        have := htd h
        cases has_received <;> simp at this ⊢
        omega)
    simp only [if_true, Function.update_self] at ih
    refine ⟨?_, fun loc h1 h2 => ?_, fun h _ => ?_⟩
    · simp only [replay, combine, Function.update_self, Function.update_of_ne hright]
      exact ih.1
    · simp only [replay, Function.update_self, Function.update_of_ne hright]
      rw [ih.2.1 loc h1 h2, Function.update_of_ne h2, Function.update_of_ne h1]
    · simp only [replay, combine, Function.update_self, Function.update_of_ne hright] at h ⊢
      exact ih.2.2 h (.inl trivial)

/-- A replay that meets no broadcast receive goes on from where it ended, having received once it
met a child. -/
theorem replay_append_of_none {tmp data : Loc} {incoming : Int → α} :
    ∀ (l₁ : List TreeAction) (has_received : Bool) (mem : Loc → α), (∀ t, TreeAction.recv t ∉ l₁) →
      ∀ l₂, replay tmp data incoming (l₁ ++ l₂) has_received mem =
        replay tmp data incoming l₂ (has_received || decide (0 < nchildren l₁))
          (replay tmp data incoming l₁ has_received mem).1
  | [], has_received, mem, _, l₂ => by simp [replay]
  | .none :: l₁, has_received, mem, h, l₂ => by
    simp only [List.cons_append, replay, nchildren_cons_none]
    exact replay_append_of_none l₁ has_received mem (fun t ht => h t (List.mem_cons_of_mem _ ht)) l₂
  | .send _ :: l₁, _, _, h, l₂ => by
    simp only [List.cons_append, replay, nchildren_cons_send, Nat.zero_lt_succ, decide_true,
      Bool.or_true]
    exact replay_append_of_none l₁ true _ (fun t ht => h t (List.mem_cons_of_mem _ ht)) l₂
  | .recv t :: _, _, _, h, _ => absurd List.mem_cons_self (h t)

theorem combine_append_of_none {incoming : Int → α} {l₁ : List TreeAction} {acc : α}
    (h : (combine incoming l₁ acc).2 = none) (l₂ : List TreeAction) :
    combine incoming (l₁ ++ l₂) acc = combine incoming l₂ (combine incoming l₁ acc).1 := by
  induction l₁ generalizing acc with
  | nil => rfl
  | cons a l₁ ih =>
    cases a with
    | send t => exact ih h
    | recv t => simp [combine] at h
    | none => exact ih h

theorem combine_snd_eq_none {incoming : Int → α} :
    ∀ {l : List TreeAction} {acc : α}, (∀ t, TreeAction.recv t ∉ l) →
      (combine incoming l acc).2 = none
  | [], _, _ => rfl
  | .send _ :: _, _, h => by
    simpa only [combine] using combine_snd_eq_none fun t ht => h t (List.mem_cons_of_mem _ ht)
  | .none :: _, _, h => by
    simpa only [combine] using combine_snd_eq_none fun t ht => h t (List.mem_cons_of_mem _ ht)
  | .recv t :: _, _, h => absurd List.mem_cons_self (h t)

/-! ### The tree reduce over the positions of the broadcast line -/

section Tree

open BinomialTree

variable {n root : Nat} (y : Nat → α)

/-- The contributions of positions `lo, …, hi`, combined, in `WithOne α`. -/
def blockProd (lo hi : Nat) : WithOne α := ∏ q ∈ Finset.Ico lo (hi + 1), ((y q : α) : WithOne α)

theorem blockProd_self (p : Nat) : blockProd y p p = y p := by
  simp [blockProd]

theorem blockProd_split {lo mid hi : Nat} (h1 : lo < mid) (h2 : mid ≤ hi + 1) :
    blockProd y mid hi * blockProd y lo (mid - 1) = blockProd y lo hi := by
  unfold blockProd
  rw [Nat.sub_add_cancel (by omega), mul_comm, Finset.prod_Ico_consecutive _ (by omega) h2]

variable (n root)

/-- The actions of position `p` from the last round down to round `k`, as the replay meets them. -/
def movesFrom (p k : Nat) : List TreeAction :=
  (List.range' k (rounds n - k)).reverse.map fun j => actionOf n root (moveAt n p j)

variable {n root}

theorem movesFrom_succ {p k : Nat} (hk : k < rounds n) :
    movesFrom n root p k = movesFrom n root p (k + 1) ++ [actionOf n root (moveAt n p k)] := by
  unfold movesFrom
  rw [show rounds n - k = rounds n - (k + 1) + 1 by omega, List.range'_succ, List.reverse_cons,
    List.map_append]
  rfl

/-- A holder's block shrinks to its first part when it sends `jump` positions on. -/
theorem blockAt_succ_of_send (hn : 1 ≤ n) {p k c : Nat} (h : moveAt n p k = .send c) :
    (blockAt n p (k + 1)).1 = p ∧ (blockAt n p (k + 1)).2 = c - 1 ∧ p < c ∧
      c ≤ (blockAt n p k).2 := by
  obtain ⟨h1, h2, rfl⟩ := moveAt_send h
  have hJ := one_le_jumpAt hn k
  rw [blockAt_succ, blockStep_fst, blockStep_snd, h1, if_neg (by omega), if_neg (by omega)]
  refine ⟨rfl, ?_, by omega, by omega⟩
  omega

theorem blockAt_succ_of_none (hn : 1 ≤ n) {p k : Nat} (hp : p < n) (hfirst : (blockAt n p k).1 = p)
    (h : moveAt n p k = .none) : blockAt n p (k + 1) = blockAt n p k := by
  have hJ := one_le_jumpAt hn k
  have hle := (blockAt_block hp k).le_last
  have hno : ¬jumpAt n k ≤ (blockAt n p k).2 - p := by
    intro hJle
    unfold moveAt at h
    rw [if_pos ⟨hfirst, hJle⟩] at h
    cases h
  rw [blockAt_succ]
  ext
  · rw [blockStep_fst, hfirst, if_neg (by omega)]
  · rw [blockStep_snd, hfirst, if_neg (by omega)]
    omega

/-- **A holder's partial result is its block.** Position `p`, holding its block from round `k`
on, replays the rounds from the last one down to `k` without meeting its parent, and ends with
the contributions of its block combined, provided every child it sends to in those rounds
delivers the contributions of the part of the block it took over. -/
theorem combine_movesFrom (hn : 2 ≤ n) {p : Nat} (hp : p < n) (incoming : Int → α) :
    ∀ d k, k + d = rounds n → (blockAt n p k).1 = p →
      (∀ j c, k ≤ j → moveAt n p j = .send c →
        ((incoming (rankOf n root c) : α) : WithOne α) = blockProd y c (blockAt n p j).2) →
      (combine incoming (movesFrom n root p k) (y p)).2 = none ∧
        ((combine incoming (movesFrom n root p k) (y p)).1 : WithOne α) =
          blockProd y p (blockAt n p k).2
  | 0, k, hk, _, _ => by
    have hmoves : movesFrom n root p k = [] := by simp [movesFrom, ← hk]
    rw [hmoves, show k = rounds n by omega, blockAt_rounds hn hp]
    exact ⟨rfl, (blockProd_self y p).symm⟩
  | d + 1, k, hk, hfirst, hinc => by
    have hstays : (blockAt n p (k + 1)).1 = p :=
      blockAt_fst_stays (by omega) hfirst (Nat.le_succ k)
    obtain ⟨ih1, ih2⟩ := combine_movesFrom hn hp incoming d (k + 1) (by omega) hstays
      (fun j c hj hc => hinc j c (by omega) hc)
    rw [movesFrom_succ (by omega), combine_append_of_none ih1]
    cases hmove : moveAt n p k with
    | send c =>
      obtain ⟨-, hlast, hpc, hcle⟩ := blockAt_succ_of_send (by omega) hmove
      refine ⟨rfl, ?_⟩
      simp only [actionOf, combine, WithOne.coe_mul]
      rw [ih2, hinc k c le_rfl hmove, hlast, blockProd_split y hpc (by omega)]
    | recv q =>
      have := (moveAt_recv (by omega) hmove).1
      have := one_le_jumpAt (n := n) (by omega) k
      omega
    | none =>
      rw [blockAt_succ_of_none (by omega) hp hfirst hmove] at ih2
      exact ⟨rfl, ih2⟩

/-- The child's part of a sender's block: it starts at the child and ends where the sender's
block ended, and the child receives from the sender in that round. -/
theorem blockAt_child (hn : 1 ≤ n) {p j c : Nat} (hp : p < n) (h : moveAt n p j = .send c) :
    (blockAt n c (j + 1)).2 = (blockAt n p j).2 ∧ moveAt n c j = .recv p := by
  obtain ⟨h1, h2, rfl⟩ := moveAt_send h
  have hJ := one_le_jumpAt hn j
  have hlast := (blockAt_block hp j).last_lt
  have hsame := blockAt_eq_of_mem (p := p) (q := p + jumpAt n j) (k := j) hn (by omega) (by omega)
  refine ⟨?_, (moveAt_send_iff_recv hn hp (by omega)).mp h⟩
  rw [blockAt_succ, hsame, blockStep_snd, h1, if_pos le_rfl]

theorem recv_not_mem_movesFrom (hn : 1 ≤ n) {p k q : Nat} (hrecv : moveAt n p k = .recv q)
    (t : Int) : TreeAction.recv t ∉ movesFrom n root p (k + 1) := by
  intro hmem
  simp only [movesFrom, List.mem_map, List.mem_reverse, List.mem_range'_1] at hmem
  obtain ⟨j, hj, hact⟩ := hmem
  obtain ⟨q', hq', -⟩ := actionOf_eq_recv.mp hact
  have := recv_unique hn hrecv hq'
  omega

theorem moveAt_send_lt_rounds (hn : 2 ≤ n) {p j c : Nat} (hp : p < n) (h : moveAt n p j = .send c) :
    j < rounds n := by
  by_contra hj
  have hlast : ∀ i, rounds n ≤ i → (blockAt n p i).2 ≤ p := by
    intro i hi
    induction i, hi using Nat.le_induction with
    | base => rw [blockAt_rounds hn hp]
    | succ i _ ih => exact blockAt_succ_le.2.trans ih
  have := hlast j (by omega)
  have := (moveAt_send h).2.1
  have := one_le_jumpAt (n := n) (by omega) j
  omega

theorem recv_lt_send (hn : 1 ≤ n) {p k j q c : Nat} (hp0 : p ≠ 0) (hrecv : moveAt n p k = .recv q)
    (hsend : moveAt n p j = .send c) : k < j := by
  rcases send_after_recv hn hsend with h0 | ⟨i, hi, r, hr⟩
  · exact absurd h0 hp0
  · rw [recv_unique hn hrecv hr]
    exact hi

theorem movesFrom_split {p k : Nat} :
    ∀ d j, k + d = j → j < rounds n →
      ∃ rest, movesFrom n root p k = movesFrom n root p (j + 1) ++
        actionOf n root (moveAt n p j) :: rest
  | 0, j, hj, hlt => ⟨[], by rw [← hj, Nat.add_zero, movesFrom_succ (by omega)]; rfl⟩
  | d + 1, j, hj, hlt => by
    obtain ⟨rest, hrest⟩ := movesFrom_split (p := p) (k := k + 1) d j (by omega) hlt
    refine ⟨rest ++ [actionOf n root (moveAt n p k)], ?_⟩
    rw [movesFrom_succ (by omega), hrest]
    simp

end Tree

/-! ### Every rank's `reduce_x` -/

theorem buffers_fst_ne_sendbuf (is_root : Bool) (nchildren : Nat) (in_place : Bool) :
    (buffers is_root nchildren in_place).1 ≠ .sendbuf := by
  unfold buffers
  cases is_root <;> cases in_place <;> simp <;> split_ifs <;> simp

theorem buffers_fst_eq_snd {is_root : Bool} {nchildren : Nat} {in_place : Bool}
    (h : (buffers is_root nchildren in_place).1 = (buffers is_root nchildren in_place).2) :
    nchildren = 1 := by
  unfold buffers at h
  cases is_root <;> cases in_place <;> simp at h <;> split_ifs at h with h1 <;> simp_all

theorem nchildren_reverse (l : List TreeAction) : nchildren l.reverse = nchildren l :=
  List.countP_reverse

theorem buffers_snd_root (nchildren : Nat) (in_place : Bool) :
    (buffers true nchildren in_place).2 = if in_place then .sendbuf else .recvbuf := by
  simp only [buffers, ↓reduceIte]
  split_ifs <;> rfl

/-- A non-root rank combines into a buffer it allocated, never into `sendbuf`. -/
theorem buffers_snd_nonroot (nchildren : Nat) (in_place : Bool) :
    (buffers false nchildren in_place).2 ≠ .sendbuf := by
  simp only [buffers, Bool.false_eq_true, ↓reduceIte]
  split_ifs <;> simp

/-- `reduce_x` on more than one rank is the replay of its tree in the buffers it chose, and
what the replay computes is `combine`. -/
theorem reduce_x_spec {nranks root rank : Nat} (hn : nranks ≠ 1) (in_place : Bool)
    (incoming : Int → α) (mem : Loc → α) :
    (reduce_x nranks root rank in_place incoming mem).2 =
        (combine incoming (build_tree nranks root rank).reverse (mem .sendbuf)).2.map
          (fun p => (p, (combine incoming (build_tree nranks root rank).reverse (mem .sendbuf)).1)) ∧
      (∀ loc, loc ≠ (buffers (rank = root) (nchildren (build_tree nranks root rank)) in_place).1 →
        loc ≠ (buffers (rank = root) (nchildren (build_tree nranks root rank)) in_place).2 →
        (reduce_x nranks root rank in_place incoming mem).1 loc = mem loc) ∧
      ((combine incoming (build_tree nranks root rank).reverse (mem .sendbuf)).2 = none →
        0 < nchildren (build_tree nranks root rank) →
        (reduce_x nranks root rank in_place incoming mem).1
            (buffers (rank = root) (nchildren (build_tree nranks root rank)) in_place).2 =
          (combine incoming (build_tree nranks root rank).reverse (mem .sendbuf)).1) := by
  have h := replay_spec incoming (buffers_fst_ne_sendbuf (rank = root)
      (nchildren (build_tree nranks root rank)) in_place) (build_tree nranks root rank).reverse
      false mem (fun hb => by
        rw [if_neg (by simp), nchildren_reverse, buffers_fst_eq_snd hb])
  simp only [Bool.false_eq_true, if_false, nchildren_reverse] at h
  simp only [reduce_x, if_neg hn]
  exact ⟨h.1, h.2.1, fun hc hpos => h.2.2 hc (.inr hpos)⟩

/-! ### All ranks

Every rank runs `reduce_x`, and every blocking receive gets what the matching send carried.
`reduce_msg fuel r` is what rank `r` sends when `fuel` bounds the depth of the tree below it. -/

section Run

open BinomialTree

variable (nranks root : Nat) (in_place : Nat → Bool) (mem : Nat → Loc → α)

/-- What rank `r` sends its parent, its children's messages computed with one less `fuel`. -/
def reduce_msg : Nat → Nat → α
  | 0, r => mem r .sendbuf
  | fuel + 1, r =>
    ((reduce_x nranks root r (in_place r) (fun c => reduce_msg fuel c.toNat) (mem r)).2.map
      Prod.snd).getD (mem r .sendbuf)

/-- Every rank's `reduce_x` in the run, its children's messages computed with `⌈log₂ n⌉` fuel. -/
def reduce_run (r : Nat) : (Loc → α) × Option (Int × α) :=
  reduce_x nranks root r (in_place r)
    (fun c => reduce_msg nranks root in_place mem (rounds nranks) c.toNat) (mem r)

/-- The contribution of position `q` of the line from `root`: the `sendbuf` of its rank. -/
def contribution (q : Nat) : α := mem ((q + root) % nranks) .sendbuf

variable {nranks root}

theorem posOf_add_root_mod (hr : root < nranks) {rank : Nat} (hrank : rank < nranks) :
    (posOf nranks root rank + root) % nranks = rank := by
  have h := rankOf_posOf hr hrank
  unfold rankOf at h
  exact_mod_cast h

/-- The contributions of the line's positions are the ranks' `sendbuf`s in another order. -/
theorem prod_contribution (hr : root < nranks) :
    ∏ q ∈ Finset.range nranks, ((contribution nranks root mem q : α) : WithOne α) =
      ∏ r ∈ Finset.range nranks, ((mem r .sendbuf : α) : WithOne α) := by
  refine Finset.prod_nbij' (fun q => (q + root) % nranks) (posOf nranks root) ?_ ?_ ?_ ?_ ?_
  · intro q _
    exact Finset.mem_range.mpr (Nat.mod_lt _ (by omega))
  · intro r _
    exact Finset.mem_range.mpr (posOf_lt (by omega))
  · intro q hq
    exact posOf_rankOf hr (Finset.mem_range.mp hq)
  · intro r hrank
    exact posOf_add_root_mod hr (Finset.mem_range.mp hrank)
  · intro q _
    rfl

theorem reverse_build_tree (hn : 2 ≤ nranks) (hn' : nranks ≤ 2 ^ 30) (hr : root < nranks)
    {rank : Nat} (hrank : rank < nranks) :
    (build_tree nranks root rank).reverse = movesFrom nranks root (posOf nranks root rank) 0 := by
  rw [build_tree_eq_schedule hn hn' hr hrank, schedule, movesFrom, List.map_reverse,
    List.range_eq_range', Nat.sub_zero]

/-- **A non-root rank sends once, to its parent.** Its replay meets its children first and
then the round it received in, where it sends what `combine` has gathered and stops. -/
theorem reduce_x_nonroot (hn : 2 ≤ nranks) (hn' : nranks ≤ 2 ^ 30) (hr : root < nranks)
    {rank k q : Nat} (hrank : rank < nranks) (hk : k < rounds nranks)
    (hrecv : moveAt nranks (posOf nranks root rank) k = .recv q) (ip : Bool) (incoming : Int → α) :
    (reduce_x nranks root rank ip incoming (mem rank)).2 =
      some (rankOf nranks root q, (combine incoming
        (movesFrom nranks root (posOf nranks root rank) (k + 1)) (mem rank .sendbuf)).1) := by
  obtain ⟨rest, hsplit⟩ : ∃ rest, movesFrom nranks root (posOf nranks root rank) 0 =
      movesFrom nranks root (posOf nranks root rank) (k + 1) ++
        actionOf nranks root (moveAt nranks (posOf nranks root rank) k) :: rest :=
    movesFrom_split k k (Nat.zero_add k) hk
  have hnone : (combine incoming (movesFrom nranks root (posOf nranks root rank) (k + 1))
      (mem rank .sendbuf)).2 = none :=
    combine_snd_eq_none (recv_not_mem_movesFrom (by omega) hrecv)
  rw [(reduce_x_spec (by omega) ip incoming (mem rank)).1, reverse_build_tree hn hn' hr hrank,
    hsplit, combine_append_of_none hnone]
  simp [combine, actionOf, hrecv]

/-- **A non-root rank sends its parent `data_buffer`, or `sendbuf` when it has no child.** Its
children are in the rounds after its receive, all of which the replay meets before it. -/
theorem reduce_x_sends_buffer (hn : 2 ≤ nranks) (hn' : nranks ≤ 2 ^ 30) (hr : root < nranks)
    {rank k q : Nat} (hrank : rank < nranks) (hne : rank ≠ root) (hk : k < rounds nranks)
    (hrecv : moveAt nranks (posOf nranks root rank) k = .recv q) (ip : Bool) (incoming : Int → α) :
    (reduce_x nranks root rank ip incoming (mem rank)).2 =
      some (rankOf nranks root q, (reduce_x nranks root rank ip incoming (mem rank)).1
        (if nchildren (build_tree nranks root rank) = 0 then .sendbuf
          else (buffers false (nchildren (build_tree nranks root rank)) ip).2)) := by
  have hp0 : posOf nranks root rank ≠ 0 := posOf_ne_zero hr hrank hne
  obtain ⟨rest, hsplit⟩ : ∃ rest, movesFrom nranks root (posOf nranks root rank) 0 =
      movesFrom nranks root (posOf nranks root rank) (k + 1) ++
        actionOf nranks root (moveAt nranks (posOf nranks root rank) k) :: rest :=
    movesFrom_split k k (Nat.zero_add k) hk
  have hpos : 0 < nchildren (build_tree nranks root rank) ↔
      0 < nchildren (movesFrom nranks root (posOf nranks root rank) (k + 1)) := by
    rw [← nchildren_reverse, reverse_build_tree hn hn' hr hrank, nchildren_pos_iff,
      nchildren_pos_iff]
    constructor
    · rintro ⟨t, ht⟩
      simp only [movesFrom, List.mem_map, List.mem_reverse, List.mem_range'_1] at ht ⊢
      obtain ⟨j, hj, hact⟩ := ht
      obtain ⟨c, hc, -⟩ := actionOf_eq_send.mp hact
      have := recv_lt_send (by omega) hp0 hrecv hc
      exact ⟨t, j, by omega, hact⟩
    · rintro ⟨t, ht⟩
      exact ⟨t, hsplit ▸ List.mem_append_left _ ht⟩
  have hb : decide (rank = root) = false := decide_eq_false hne
  unfold reduce_x
  simp only [if_neg (show nranks ≠ 1 by omega), hb]
  rw [reverse_build_tree hn hn' hr hrank, hsplit,
    replay_append_of_none _ _ _ (recv_not_mem_movesFrom (by omega) hrecv), hrecv]
  simp only [actionOf, replay, Bool.false_or, decide_eq_true_eq]
  by_cases h0 : nchildren (build_tree nranks root rank) = 0
  · have : ¬0 < nchildren (movesFrom nranks root (posOf nranks root rank) (k + 1)) := by
      rw [← hpos]
      omega
    simp [h0, this]
  · simp [h0, hpos.mp (Nat.pos_of_ne_zero h0)]

/-- **The root receives from all its children and ends with their result in `recvbuf`.** It is
position 0, which never receives and sends in round 0, so its replay runs to the end. -/
theorem reduce_x_root (hn : 2 ≤ nranks) (hn' : nranks ≤ 2 ^ 30) (hr : root < nranks) (ip : Bool)
    (incoming : Int → α) :
    (reduce_x nranks root root ip incoming (mem root)).2 = none ∧
      (reduce_x nranks root root ip incoming (mem root)).1 (if ip then .sendbuf else .recvbuf) =
        (combine incoming (movesFrom nranks root 0 0) (mem root .sendbuf)).1 := by
  have hrev : (build_tree nranks root root).reverse = movesFrom nranks root 0 0 := by
    rw [reverse_build_tree hn hn' hr hr, posOf_self]
  have hnone : (combine incoming (movesFrom nranks root 0 0) (mem root .sendbuf)).2 = none := by
    refine combine_snd_eq_none fun t ht => ?_
    simp only [movesFrom, List.mem_map, List.mem_reverse, List.mem_range'_1] at ht
    obtain ⟨j, -, hact⟩ := ht
    obtain ⟨q, hq, -⟩ := actionOf_eq_recv.mp hact
    exact moveAt_zero_ne_recv (by omega) hq
  have hsend : moveAt nranks 0 0 = .send ((nranks + 1) / 2) := by
    have : (nranks + 1) / 2 ≤ nranks - 1 := by omega
    simp [moveAt, this]
  have hpos : 0 < nchildren (build_tree nranks root root) := by
    obtain ⟨rest, hsplit⟩ : ∃ rest, movesFrom nranks root 0 0 =
        movesFrom nranks root 0 1 ++ actionOf nranks root (moveAt nranks 0 0) :: rest :=
      movesFrom_split 0 0 rfl (one_le_rounds hn)
    rw [← nchildren_reverse, hrev, hsplit, hsend, nchildren_pos_iff]
    exact ⟨_, List.mem_append_right _ List.mem_cons_self⟩
  have hspec := @reduce_x_spec α _ nranks root root (by omega) ip incoming (mem root)
  rw [decide_eq_true (rfl : root = root), hrev] at hspec
  refine ⟨by rw [hspec.1, hnone]; rfl, ?_⟩
  rw [← buffers_snd_root (nchildren (build_tree nranks root root)) ip]
  exact hspec.2.2 hnone hpos

/-- **What a rank sends is its subtree's contributions, combined.** The position `c` that
receives in round `j` takes over the block `c, …` up to the end of its parent's block; with
fuel for the rounds below `j`, its message combines the contributions of that block. The
induction is on the fuel: each child's message needs one less. -/
theorem reduce_msg_eq (hn : 2 ≤ nranks) (hn' : nranks ≤ 2 ^ 30) (hr : root < nranks) :
    ∀ fuel {c j q : Nat}, c < nranks → j < rounds nranks → moveAt nranks c j = .recv q →
      rounds nranks ≤ fuel + j + 1 →
      ((reduce_msg nranks root in_place mem fuel ((c + root) % nranks) : α) : WithOne α) =
        blockProd (contribution nranks root mem) c (blockAt nranks c (j + 1)).2
  | 0, c, j, q, hc, hj, _, hfuel => by
    rw [show j + 1 = rounds nranks by omega, blockAt_rounds hn hc, blockProd_self]
    rfl
  | fuel + 1, c, j, q, hc, hj, hrecv, hfuel => by
    have hpos : posOf nranks root ((c + root) % nranks) = c := posOf_rankOf hr hc
    have hsend := reduce_x_nonroot mem hn hn' hr (Nat.mod_lt _ (by omega)) hj
      (hpos ▸ hrecv) (in_place ((c + root) % nranks))
      (fun c' => reduce_msg nranks root in_place mem fuel c'.toNat)
    rw [hpos] at hsend
    have hchild : ∀ j' c', j + 1 ≤ j' → moveAt nranks c j' = .send c' →
        ((reduce_msg nranks root in_place mem fuel (rankOf nranks root c').toNat : α) :
          WithOne α) = blockProd (contribution nranks root mem) c' (blockAt nranks c j').2 := by
      intro j' c' hj' hsend'
      obtain ⟨hlast, hrecv'⟩ := blockAt_child (by omega) hc hsend'
      have hc' := ((moveAt_peer (by omega) hc).1 hsend').2
      rw [← hlast, rankOf, Int.toNat_natCast]
      exact reduce_msg_eq hn hn' hr fuel hc' (moveAt_send_lt_rounds hn hc hsend') hrecv'
        (by omega)
    obtain ⟨-, hval⟩ := combine_movesFrom (contribution nranks root mem) hn hc
      (fun c' => reduce_msg nranks root in_place mem fuel c'.toNat) (rounds nranks - (j + 1))
      (j + 1) (by omega) (blockAt_succ_fst_of_recv (by omega) hrecv).1 hchild
    simp only [reduce_msg, hsend, Option.map_some, Option.getD_some]
    exact hval

/-- The root's result: its `recvbuf` (its `sendbuf` when in place) holds the contributions of
all ranks, combined. -/
theorem reduce_run_root (hn : 2 ≤ nranks) (hn' : nranks ≤ 2 ^ 30) (hr : root < nranks) :
    ((reduce_run nranks root in_place mem root).1
        (if in_place root then .sendbuf else .recvbuf) : WithOne α) =
      ∏ r ∈ Finset.range nranks, ((mem r .sendbuf : α) : WithOne α) := by
  have hchild : ∀ j c, 0 ≤ j → moveAt nranks 0 j = .send c →
      ((reduce_msg nranks root in_place mem (rounds nranks) (rankOf nranks root c).toNat : α) :
        WithOne α) = blockProd (contribution nranks root mem) c (blockAt nranks 0 j).2 := by
    intro j c _ hsend
    obtain ⟨hlast, hrecv⟩ := blockAt_child (by omega) (by omega) hsend
    have hc := ((moveAt_peer (by omega) (by omega)).1 hsend).2
    rw [← hlast, rankOf, Int.toNat_natCast]
    exact reduce_msg_eq in_place mem hn hn' hr (rounds nranks) hc
      (moveAt_send_lt_rounds hn (by omega) hsend) hrecv (by omega)
  obtain ⟨-, hval⟩ := combine_movesFrom (contribution nranks root mem) (n := nranks) hn
    (by omega : 0 < nranks) (fun c => reduce_msg nranks root in_place mem (rounds nranks) c.toNat)
    (rounds nranks) 0 (Nat.zero_add _) rfl hchild
  have hy : mem root .sendbuf = contribution nranks root mem 0 := by
    rw [contribution, Nat.zero_add, Nat.mod_eq_of_lt hr]
  unfold reduce_run
  rw [(reduce_x_root mem hn hn' hr (in_place root) _).2, hy, hval, blockAt_zero, blockProd,
    Nat.sub_add_cancel (by omega), ← Finset.range_eq_Ico, prod_contribution mem hr]

/-- **The tree reduce computes the full reduction.** For `2 ≤ n ≤ 2^30` ranks, the root ends with
the contributions of all ranks combined in its `recvbuf` (its `sendbuf` when in place) and sends
nothing; every other rank sends once, to the parent it receives from in the broadcast, after all
its children (which the broadcast serves in later rounds), and sends `data_buffer`, or its
`sendbuf` when it has no child; and a non-root rank's `sendbuf` is left as it was. -/
theorem reduce_computes_full_reduction (hn : 2 ≤ nranks) (hn' : nranks ≤ 2 ^ 30)
    (hr : root < nranks) :
    ((reduce_run nranks root in_place mem root).1
        (if in_place root then .sendbuf else .recvbuf) : WithOne α) =
        ∏ r ∈ Finset.range nranks, ((mem r .sendbuf : α) : WithOne α) ∧
      (reduce_run nranks root in_place mem root).2 = none ∧
      ∀ r < nranks, r ≠ root →
        (∃ k < rounds nranks, ∃ q : Int, (build_tree nranks root r)[k]? = some (.recv q) ∧
          (∀ j (x : Int), (build_tree nranks root r)[j]? = some (.send x) → k < j) ∧
          (reduce_run nranks root in_place mem r).2 =
            some (q, (reduce_run nranks root in_place mem r).1
              (if nchildren (build_tree nranks root r) = 0 then .sendbuf
                else (buffers false (nchildren (build_tree nranks root r)) (in_place r)).2))) ∧
        (reduce_run nranks root in_place mem r).1 .sendbuf = mem r .sendbuf := by
  refine ⟨reduce_run_root in_place mem hn hn' hr, (reduce_x_root mem hn hn' hr _ _).1,
    fun r hrank hne => ⟨?_, ?_⟩⟩
  · have hp0 := posOf_ne_zero hr hrank hne
    obtain ⟨k, hk, q, hrecv⟩ := exists_recv hn (posOf_lt (by omega)) (Nat.pos_of_ne_zero hp0)
    refine ⟨k, hk, rankOf nranks root q, ?_, fun j x hx => ?_,
      reduce_x_sends_buffer mem hn hn' hr hrank hne hk hrecv _ _⟩
    · rw [build_tree_eq_schedule hn hn' hr hrank, schedule_eq_recv]
      exact ⟨hk, q, hrecv, rfl⟩
    · rw [build_tree_eq_schedule hn hn' hr hrank, schedule_eq_send] at hx
      obtain ⟨-, c, hc, -⟩ := hx
      exact recv_lt_send (by omega) hp0 hrecv hc
  · -- neither of a non-root rank's buffers is `sendbuf`
    have hframe := (@reduce_x_spec α _ nranks root r (by omega) (in_place r)
      (fun c => reduce_msg nranks root in_place mem (rounds nranks) c.toNat) (mem r)).2.1
    rw [decide_eq_false hne] at hframe
    exact hframe .sendbuf (buffers_fst_ne_sendbuf _ _ _).symm (buffers_snd_nonroot _ _).symm

theorem reduce_computes_full_reduction_three :
    (2 ≤ 3 ∧ 3 ≤ 2 ^ 30 ∧ 1 < 3) ∧
      let in_place : Nat → Bool := fun r => r == 1
      let mem : Nat → Loc → Nat := fun r _ => r + 2
      ((reduce_run 3 1 in_place mem 1).1
          (if in_place 1 then .sendbuf else .recvbuf) : WithOne Nat) =
          ∏ r ∈ Finset.range 3, ((mem r .sendbuf : Nat) : WithOne Nat) ∧
        (reduce_run 3 1 in_place mem 1).2 = none ∧
        ∀ r : Nat, r < 3 → r ≠ 1 →
          (∃ k < rounds 3, ∃ q : Int, (build_tree 3 1 r)[k]? = some (.recv q) ∧
            (∀ j (x : Int), (build_tree 3 1 r)[j]? = some (.send x) → k < j) ∧
            (reduce_run 3 1 in_place mem r).2 =
              some (q, (reduce_run 3 1 in_place mem r).1
                (if nchildren (build_tree 3 1 r) = 0 then .sendbuf
                  else (buffers false (nchildren (build_tree 3 1 r)) (in_place r)).2))) ∧
          (reduce_run 3 1 in_place mem r).1 .sendbuf = mem r .sendbuf :=
  ⟨⟨by decide, by decide, by decide⟩,
    reduce_computes_full_reduction _ _ (by decide) (by decide) (by decide)⟩

end Run

/-- With `2^30 + 1` ranks the reduce hangs: the tree loop of rank `2^30` overflows, so it never
sends its parent anything, whatever its buffers hold, while rank `2^30 - 2` waits for it as a
child in round 29. -/
theorem reduce_x_overflow_never_sends (ip : Bool) (incoming : Int → α) (mem : Loc → α) :
    (build_tree (2 ^ 30 + 1) 0 (2 ^ 30 - 2))[29]? = some (.send (2 ^ 30)) ∧
      (reduce_x (2 ^ 30 + 1) 0 (2 ^ 30) ip incoming mem).2 = none := by
  have h : build_tree ((2 ^ 30 + 1 : Nat) : Int) ((0 : Nat) : Int) ((2 ^ 30 : Nat) : Int) =
      List.replicate 31 .none := by decide
  refine ⟨by decide, ?_⟩
  unfold reduce_x
  rw [if_neg (by decide), h]
  rfl

/-- The hang at one input: a product reduce of ones, not in place. -/
theorem reduce_x_overflow_silent :
    (build_tree (2 ^ 30 + 1) 0 (2 ^ 30 - 2))[29]? = some (.send (2 ^ 30)) ∧
      (reduce_x (2 ^ 30 + 1) 0 (2 ^ 30) false (fun _ => (1 : Nat)) (fun _ => 1)).2 = none :=
  reduce_x_overflow_never_sends false _ _

end Lci.Reduce
