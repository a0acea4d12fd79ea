import Lci.PmiTcp

/-! Why the fence is right in every interleaving. Each client's connection carries, in order,
what its history sends: at each barrier call its pending entries and a BARRIER (`sendLog`).
Rank 0 reads a connection only until that client's BARRIER of the current round, so what it has
read from a client when the round ends is exactly the prefix of the log through its `k`-th
BARRIER, whose last writes are the client's last publishes before its `k`-th barrier call
(`lastWrite_sendLog`). The snapshot of round `k` therefore holds every rank's publishes before
its `k`-th call, and nothing later, however far ahead a fast client has run. -/

namespace Lci.PmiTcp

open WriteLog

variable {K V : Type} [DecidableEq K]

section Logs

/-- The pending map after history `h`, from `pend`: the publishes since the last barrier call. -/
def pendingAfter : List (K × V) → List (Op K V) → List (K × V)
  | pend, [] => pend
  | pend, .publish k v :: h => pendingAfter (assign pend k v) h
  | _, .barrier :: h => pendingAfter [] h

/-- The messages rank `r` sends over history `h`, from pending map `pend`. -/
def sendLog (r : Nat) : List (K × V) → List (Op K V) → List (wire_msg_t K V)
  | _, [] => []
  | pend, .publish k v :: h => sendLog r (assign pend k v) h
  | pend, .barrier :: h => barrier_msgs r pend ++ sendLog r [] h

variable (r : Nat) (pend : List (K × V)) (h : List (Op K V))

theorem pendingAfter_append_publish (k : K) (v : V) :
    pendingAfter pend (h ++ [.publish k v]) = assign (pendingAfter pend h) k v := by
  induction h generalizing pend with
  | nil => rfl
  | cons op h ih =>
    cases op with
    | publish k' v' => exact ih _
    | barrier => exact ih _

theorem pendingAfter_append_barrier : pendingAfter pend (h ++ [.barrier]) = ([] : List (K × V)) := by
  induction h generalizing pend with
  | nil => rfl
  | cons op h ih =>
    cases op with
    | publish k' v' => exact ih _
    | barrier => exact ih _

theorem sendLog_append_publish (k : K) (v : V) :
    sendLog r pend (h ++ [.publish k v]) = sendLog r pend h := by
  induction h generalizing pend with
  | nil => rfl
  | cons op h ih =>
    cases op with
    | publish k' v' => exact ih _
    | barrier => exact congrArg (barrier_msgs r pend ++ ·) (ih [])

theorem sendLog_append_barrier :
    sendLog r pend (h ++ [.barrier]) = sendLog r pend h ++ barrier_msgs r (pendingAfter pend h) := by
  induction h generalizing pend with
  | nil => simp [sendLog, pendingAfter]
  | cons op h ih =>
    cases op with
    | publish k' v' => exact ih _
    | barrier =>
      rw [List.cons_append, sendLog, sendLog, ih, List.append_assoc]
      rfl

omit [DecidableEq K] in
@[simp] theorem filterMap_barrier_msgs :
    (barrier_msgs r pend).filterMap wire_msg_t.write? = pend := by
  induction pend with
  | nil => rfl
  | cons e pend ih =>
    simp only [barrier_msgs, List.map_cons, List.cons_append, List.filterMap_cons] at ih ⊢
    rw [ih]
    rfl

omit [DecidableEq K] in
theorem countP_barrier_msgs : (barrier_msgs r pend).countP wire_msg_t.isBarrier = 1 := by
  induction pend with
  | nil => rfl
  | cons e pend ih =>
    simp only [barrier_msgs, List.map_cons, List.cons_append, List.countP_cons] at ih ⊢
    rw [ih]
    rfl

omit [DecidableEq K] in
/-- A barrier's messages pass whole into a prefix that reaches past them. -/
theorem takeThrough_barrier_msgs (l : List (wire_msg_t K V)) (j : Nat) :
    takeThrough wire_msg_t.isBarrier (barrier_msgs r pend ++ l) (j + 1) =
      barrier_msgs r pend ++ takeThrough wire_msg_t.isBarrier l j := by
  have hpub : ∀ a ∈ pend.map (fun e => wire_msg_t.MSG_PUBLISH r e.1 e.2), a.isBarrier = false := by
    intro a ha
    obtain ⟨e, -, rfl⟩ := List.mem_map.mp ha
    rfl
  rw [barrier_msgs, List.append_assoc, takeThrough_append_of_not _ hpub, List.singleton_append,
    takeThrough_cons_succ, wire_msg_t.isBarrier_MSG_BARRIER, if_pos rfl, List.append_assoc]
  rfl

theorem countP_sendLog : (sendLog r pend h).countP wire_msg_t.isBarrier = calls h := by
  induction h generalizing pend with
  | nil => rfl
  | cons op h ih =>
    cases op with
    | publish k v => rw [sendLog, ih, calls_cons_publish]
    | barrier =>
      rw [sendLog, List.countP_append, countP_barrier_msgs, ih, calls_cons_barrier, Nat.add_comm]

/-- A log is its own prefix through its last BARRIER. -/
theorem takeThrough_sendLog :
    takeThrough wire_msg_t.isBarrier (sendLog r pend h) (calls h) = sendLog r pend h := by
  induction h generalizing pend with
  | nil => simp [sendLog]
  | cons op h ih =>
    cases op with
    | publish k v => rw [sendLog, calls_cons_publish, ih]
    | barrier => rw [sendLog, calls_cons_barrier, takeThrough_barrier_msgs, ih]

/-- **What a prefix of the log writes.** Through its `j`-th BARRIER, a client's log writes the
last publishes before its `j`-th barrier call, over what was pending before. -/
theorem lastWrite_sendLog (key : K) :
    ∀ j, 1 ≤ j → j ≤ calls h →
      lastWrite key ((takeThrough wire_msg_t.isBarrier (sendLog r pend h) j).filterMap
        wire_msg_t.write?) =
        (lastWrite key ((takeThrough Op.isBarrier h j).filterMap Op.write?)).or
          (lastWrite key pend) := by
  induction h generalizing pend with
  | nil =>
    intro j hj hle
    rw [calls_nil] at hle
    omega
  | cons op h ih =>
    intro j hj hle
    obtain ⟨j, rfl⟩ : ∃ i, j = i + 1 := ⟨j - 1, by omega⟩
    cases op with
    | publish k v =>
      rw [calls_cons_publish] at hle
      rw [sendLog, ih _ (j + 1) hj hle, takeThrough_cons_succ, Op.isBarrier_publish, if_neg (by simp),
        List.filterMap_cons, Op.write?_publish, lastWrite_cons, lastWrite_assign, Option.or_assoc]
      split_ifs <;> simp
    | barrier =>
      rw [calls_cons_barrier] at hle
      rw [sendLog, takeThrough_barrier_msgs, takeThrough_cons_succ, Op.isBarrier_barrier,
        if_pos rfl, List.filterMap_append, filterMap_barrier_msgs, List.filterMap_cons,
        Op.write?_barrier, lastWrite_append]
      rcases Nat.eq_zero_or_pos j with rfl | hpos
      · simp
      · rw [ih [] j hpos (by omega), lastWrite_nil, Option.or_none]

theorem published_zero (key : K) : published h 0 key = none := by
  simp [published]

theorem published_nil (k : Nat) (key : K) : published ([] : List (Op K V)) k key = none := by
  simp [published]

/-- A client's log through its `j`-th BARRIER writes its publishes before its `j`-th call. -/
theorem lastWrite_sendLog_nil (key : K) {j : Nat} (hj : j ≤ calls h) :
    lastWrite key ((takeThrough wire_msg_t.isBarrier (sendLog r [] h) j).filterMap
      wire_msg_t.write?) = published h j key := by
  rcases Nat.eq_zero_or_pos j with rfl | hpos
  · rw [takeThrough_zero, published_zero]
    rfl
  · rw [lastWrite_sendLog r [] h key j hpos hj, lastWrite_nil, Option.or_none]
    rfl

/-- What a rank publishes after its `k`-th barrier call never shows in `published` at `k`. -/
theorem published_append {k : Nat} (hk : k ≤ calls h) (h' : List (Op K V)) (key : K) :
    published (h ++ h') k key = published h k key := by
  rw [published, takeThrough_append_of_le _ hk]
  rfl

/-- `apply_pending_publishes` writes the pending map over rank `g_rank`'s entries. -/
theorem apply_pending_publishes_apply (g_rank : Nat) (kvs : Nat × K → Option V)
    (pend : List (K × V)) (q : Nat) (key : K) :
    apply_pending_publishes g_rank kvs pend (q, key) =
      if q = g_rank then (lastWrite key pend).or (kvs (q, key)) else kvs (q, key) := by
  induction pend generalizing kvs with
  | nil => split_ifs <;> simp [apply_pending_publishes]
  | cons e pend ih =>
    obtain ⟨k, v⟩ := e
    rw [apply_pending_publishes, ih, lastWrite_cons]
    by_cases hq : q = g_rank
    · subst hq
      by_cases hk : k = key
      · subst hk
        simp
      · simp [Function.update_of_ne (show (q, key) ≠ (q, k) by simp [Ne.symm hk]), hk]
    · simp [hq]

end Logs

section Histories

variable {ι : Type} [DecidableEq ι] (hist : ι → List (Op K V)) (r q : ι)

/-- Appending to rank `r`'s history keeps `published` at any round its calls have reached. -/
theorem published_update (ops : List (Op K V)) {k : Nat} (hk : k ≤ calls (hist r)) (key : K) :
    published (Function.update hist r (hist r ++ ops) q) k key = published (hist q) k key := by
  by_cases hqr : q = r
  · subst hqr
    rw [Function.update_self, published_append _ hk]
  · rw [Function.update_of_ne hqr]

omit [DecidableEq K] in
theorem calls_update_publish (k : K) (v : V) :
    calls (Function.update hist r (hist r ++ [.publish k v]) q) = calls (hist q) := by
  by_cases hqr : q = r
  · subst hqr
    simp
  · rw [Function.update_of_ne hqr]

omit [DecidableEq K] in
theorem calls_update_barrier :
    calls (Function.update hist r (hist r ++ [.barrier]) q) =
      calls (hist q) + if q = r then 1 else 0 := by
  by_cases hqr : q = r
  · subst hqr
    simp
  · rw [Function.update_of_ne hqr, if_neg hqr, Nat.add_zero]

theorem sendLog_update_publish (hist : Nat → List (Op K V)) (r q : Nat) (k : K) (v : V) :
    sendLog q [] (Function.update hist r (hist r ++ [.publish k v]) q) = sendLog q [] (hist q) := by
  by_cases hqr : q = r
  · subst hqr
    rw [Function.update_self, sendLog_append_publish]
  · rw [Function.update_of_ne hqr]

end Histories

/-- Marking one more rank below `n` arrived adds one to the count. -/
theorem card_filter_update_true {f : Nat → Bool} {n r : Nat} (hr : r < n) (hf : f r = false) :
    ((Finset.range n).filter fun q => Function.update f r true q = true).card =
      ((Finset.range n).filter fun q => f q = true).card + 1 := by
  have hset : ((Finset.range n).filter fun q => Function.update f r true q = true) =
      insert r ((Finset.range n).filter fun q => f q = true) := by
    ext q
    by_cases hq : q = r
    · subst hq
      simp [hr]
    · simp [hq]
  rw [hset, Finset.card_insert_of_notMem (by simp [hf])]

theorem all_of_card_filter {f : Nat → Bool} {n : Nat}
    (h : n ≤ ((Finset.range n).filter fun q => f q = true).card) : ∀ q < n, f q = true := by
  have hcard : ((Finset.range n).filter fun q => f q = true).card = (Finset.range n).card :=
    le_antisymm (Finset.card_filter_le _ _) (by rw [Finset.card_range]; exact h)
  intro q hq
  exact Finset.filter_card_eq hcard q (Finset.mem_range.mpr hq)

section Run

variable {n : Nat} {s : State K V}

/-- What every reachable state of `n` ranks keeps. Ranks from `n` on do nothing. A client's
connection holds, after what rank 0 has read from it, the rest of what its history sent; a rank
outside a barrier has pending its publishes since its last call, and rank 0 clears its own at
the call. Rank 0's map holds its own history's writes and the writes it has read from each client.
In round `done 0 + 1` rank 0 has read each client's log through its `done 0`-th BARRIER, and
through the next one once the client has arrived. A client outside a barrier has nothing to
receive; one inside waits for the snapshot of round `done q + 1`, which holds every rank's
publishes before that call; a client's store is the snapshot of its last round. -/
structure Inv (n : Nat) (s : State K V) : Prop where
  outside : ∀ q, n ≤ q → s.hist q = [] ∧ s.consumed q = []
  log : ∀ q, 0 < q → s.consumed q ++ s.up q = sendLog q [] (s.hist q)
  pending_idle : ∀ q, s.pc q = .idle → s.g_pending_kvs q = pendingAfter [] (s.hist q)
  pending_busy : ∀ q, s.pc q = .in_barrier → pendingAfter [] (s.hist q) = []
  pending_zero : s.pc 0 = .in_barrier → s.g_pending_kvs 0 = []
  master_self : ∀ key, s.g_kvs 0 (0, key) =
    lastWrite key ((sendLog 0 [] (s.hist 0)).filterMap wire_msg_t.write?)
  master : ∀ q, 0 < q → ∀ key, s.g_kvs 0 (q, key) =
    lastWrite key ((s.consumed q).filterMap wire_msg_t.write?)
  calls_zero : calls (s.hist 0) = s.done 0 + if s.pc 0 = .in_barrier then 1 else 0
  read : ∀ q, 0 < q → q < n → (s.consumed q).countP wire_msg_t.isBarrier =
    s.done 0 + if s.pc 0 = .in_barrier ∧ s.arrived q = true then 1 else 0
  read_prefix : ∀ q, 0 < q → q < n → (s.pc 0 = .idle ∨ s.arrived q = true) →
    s.consumed q = takeThrough wire_msg_t.isBarrier (s.consumed q ++ s.up q)
      ((s.consumed q).countP wire_msg_t.isBarrier)
  arrived_count : s.pc 0 = .in_barrier →
    s.arrived_count = ((Finset.range n).filter fun q => s.arrived q = true).card
  client_idle : ∀ q, 0 < q → q < n → s.pc q = .idle →
    s.down q = [] ∧ s.done q = s.done 0 ∧ calls (s.hist q) = s.done q
  client_busy : ∀ q, 0 < q → q < n → s.pc q = .in_barrier → calls (s.hist q) = s.done q + 1 ∧
    (s.down q = [] ∧ s.done q = s.done 0 ∨
      ∃ S, s.down q = [S] ∧ s.done q + 1 = s.done 0 ∧
        ∀ r key, S (r, key) = published (s.hist r) (s.done 0) key)
  store : ∀ q, 0 < q → q < n → ∀ r key, s.g_kvs q (r, key) = published (s.hist r) (s.done q) key
  calls_ge : ∀ r < n, s.done 0 ≤ calls (s.hist r)

theorem init_inv : Inv n (State.init : State K V) where
  outside _ _ := ⟨rfl, rfl⟩
  log _ _ := rfl
  pending_idle _ _ := rfl
  pending_busy q h := absurd h (by simp [State.init])
  pending_zero h := absurd h (by simp [State.init])
  master_self _ := rfl
  master _ _ _ := rfl
  calls_zero := rfl
  read _ _ _ := by simp [State.init]
  read_prefix _ _ _ _ := rfl
  arrived_count h := absurd h (by simp [State.init])
  client_idle _ _ _ _ := ⟨rfl, rfl, rfl⟩
  client_busy q _ _ h := absurd h (by simp [State.init])
  store _ _ _ r key := (published_nil 0 key).symm
  calls_ge _ _ := Nat.zero_le _

theorem Inv.done_le (hi : Inv n s) {q : Nat} (hq : 0 < q) (hqn : q < n) : s.done q ≤ s.done 0 := by
  cases hpc : s.pc q with
  | idle => exact (hi.client_idle q hq hqn hpc).2.1.le
  | in_barrier =>
    rcases (hi.client_busy q hq hqn hpc).2 with ⟨-, hd⟩ | ⟨-, -, hd, -⟩ <;> omega

theorem Inv.read_le (hi : Inv n s) {q : Nat} (hq : 0 < q) :
    (s.consumed q).countP wire_msg_t.isBarrier ≤ calls (s.hist q) := by
  rw [← countP_sendLog q [] (s.hist q), ← hi.log q hq, List.countP_append]
  exact Nat.le_add_right _ _

/-- Once rank 0 is outside a barrier, or the client has arrived, what rank 0 has read from it is
its log through its last BARRIER read. -/
theorem Inv.consumed_eq (hi : Inv n s) {q : Nat} (hq : 0 < q) (hqn : q < n)
    (hc : s.pc 0 = .idle ∨ s.arrived q = true) :
    s.consumed q = takeThrough wire_msg_t.isBarrier (sendLog q [] (s.hist q))
      ((s.consumed q).countP wire_msg_t.isBarrier) := by
  rw [← hi.log q hq]
  exact hi.read_prefix q hq hqn hc

/-- **Rank 0's map at the end of round `k`.** Once rank 0's own history has made `k` calls and it
has read every client's log through the client's `k`-th BARRIER, its map holds each rank's
publishes before its `k`-th barrier call. -/
theorem Inv.master_published (hi : Inv n s) {k : Nat} (h0 : calls (s.hist 0) = k)
    (hq : ∀ q, 0 < q → q < n → (s.pc 0 = .idle ∨ s.arrived q = true) ∧
      (s.consumed q).countP wire_msg_t.isBarrier = k) (r : Nat) (key : K) :
    s.g_kvs 0 (r, key) = published (s.hist r) k key := by
  rcases Nat.eq_zero_or_pos r with rfl | hr
  · rw [hi.master_self, ← h0, ← lastWrite_sendLog_nil 0 (s.hist 0) key le_rfl,
      takeThrough_sendLog]
  · by_cases hrn : r < n
    · obtain ⟨hc, hk⟩ := hq r hr hrn
      rw [hi.master r hr, hi.consumed_eq hr hrn hc, hk,
        lastWrite_sendLog_nil r (s.hist r) key (hk ▸ hi.read_le hr)]
    · obtain ⟨hh, hcons⟩ := hi.outside r (by omega)
      rw [hi.master r hr, hcons, hh, published_nil]
      rfl

/-- A rank outside a barrier publishes: only its pending map and its history grow. -/
theorem Inv.publish (hi : Inv n s) {r : Nat} (hr : r < n) (hidle : s.pc r = .idle) (key : K)
    (value : V) :
    Inv n { s with
      g_pending_kvs := Function.update s.g_pending_kvs r (assign (s.g_pending_kvs r) key value)
      hist := Function.update s.hist r (s.hist r ++ [.publish key value]) } := by
  have hpub : ∀ {k}, k ≤ s.done 0 → ∀ q key',
      published (Function.update s.hist r (s.hist r ++ [.publish key value]) q) k key' =
        published (s.hist q) k key' :=
    fun hk q key' => published_update s.hist r q _ (hk.trans (hi.calls_ge r hr)) key'
  constructor
  case outside =>
    intro q hq
    dsimp only
    rw [Function.update_of_ne (by omega)]
    exact hi.outside q hq
  case log =>
    intro q hq
    dsimp only
    rw [sendLog_update_publish]
    exact hi.log q hq
  case pending_idle =>
    intro q hq
    dsimp only at hq ⊢
    by_cases hqr : q = r
    · subst hqr
      rw [Function.update_self, Function.update_self, pendingAfter_append_publish,
        hi.pending_idle q hq]
    · rw [Function.update_of_ne hqr, Function.update_of_ne hqr]
      exact hi.pending_idle q hq
  case pending_busy =>
    intro q hq
    dsimp only at hq ⊢
    have hqr : q ≠ r := by
      rintro rfl
      rw [hidle] at hq
      cases hq
    rw [Function.update_of_ne hqr]
    exact hi.pending_busy q hq
  case pending_zero =>
    intro h
    dsimp only at h ⊢
    have h0r : 0 ≠ r := by
      rintro rfl
      rw [hidle] at h
      cases h
    rw [Function.update_of_ne h0r]
    exact hi.pending_zero h
  case master_self =>
    intro key'
    dsimp only
    rw [sendLog_update_publish]
    exact hi.master_self key'
  case master => exact hi.master
  case calls_zero =>
    dsimp only
    rw [calls_update_publish]
    exact hi.calls_zero
  case read => exact hi.read
  case read_prefix => exact hi.read_prefix
  case arrived_count => exact hi.arrived_count
  case client_idle =>
    intro q hq hqn hq'
    dsimp only
    rw [calls_update_publish]
    exact hi.client_idle q hq hqn hq'
  case client_busy =>
    intro q hq hqn hq'
    dsimp only
    rw [calls_update_publish]
    obtain ⟨hc, hd | ⟨S, hS, hdone, hSv⟩⟩ := hi.client_busy q hq hqn hq'
    · exact ⟨hc, .inl hd⟩
    · exact ⟨hc, .inr ⟨S, hS, hdone, fun r' key' => (hSv r' key').trans (hpub le_rfl r' key').symm⟩⟩
  case store =>
    intro q hq hqn r' key'
    dsimp only
    rw [hpub (hi.done_le hq hqn)]
    exact hi.store q hq hqn r' key'
  case calls_ge =>
    intro r' hr'
    dsimp only
    rw [calls_update_publish]
    exact hi.calls_ge r' hr'

/-- Rank 0 calls the barrier: it applies its pending entries and starts serving the round with
itself arrived. -/
theorem Inv.barrier_zero (hi : Inv n s) (hn : 0 < n) (hidle : s.pc 0 = .idle) :
    Inv n { s with
      pc := Function.update s.pc 0 .in_barrier
      g_kvs := Function.update s.g_kvs 0
        (apply_pending_publishes 0 (s.g_kvs 0) (s.g_pending_kvs 0))
      g_pending_kvs := Function.update s.g_pending_kvs 0 []
      arrived := fun q => decide (q = 0)
      arrived_count := 1
      hist := Function.update s.hist 0 (s.hist 0 ++ [.barrier]) } := by
  have hpub : ∀ {k}, k ≤ s.done 0 → ∀ q key',
      published (Function.update s.hist 0 (s.hist 0 ++ [.barrier]) q) k key' =
        published (s.hist q) k key' :=
    fun hk q key' => published_update s.hist 0 q _ (hk.trans (hi.calls_ge 0 hn)) key'
  constructor
  case outside =>
    intro q hq
    dsimp only
    rw [Function.update_of_ne (by omega)]
    exact hi.outside q hq
  case log =>
    intro q hq
    dsimp only
    rw [Function.update_of_ne hq.ne']
    exact hi.log q hq
  case pending_idle =>
    intro q hq
    dsimp only at hq ⊢
    have hq0 : q ≠ 0 := by
      rintro rfl
      simp at hq
    rw [Function.update_of_ne hq0] at hq ⊢
    rw [Function.update_of_ne hq0]
    exact hi.pending_idle q hq
  case pending_busy =>
    intro q hq
    dsimp only at hq ⊢
    by_cases hq0 : q = 0
    · subst hq0
      rw [Function.update_self, pendingAfter_append_barrier]
    · rw [Function.update_of_ne hq0] at hq ⊢
      exact hi.pending_busy q hq
  case pending_zero => exact fun _ => by simp
  case master_self =>
    intro key
    dsimp only
    rw [Function.update_self, apply_pending_publishes_apply, if_pos rfl, Function.update_self,
      sendLog_append_barrier, List.filterMap_append, filterMap_barrier_msgs, lastWrite_append,
      ← hi.master_self, hi.pending_idle 0 hidle]
  case master =>
    intro q hq key
    dsimp only
    rw [Function.update_self, apply_pending_publishes_apply, if_neg hq.ne']
    exact hi.master q hq key
  case calls_zero =>
    have h := hi.calls_zero
    rw [if_neg (by rw [hidle]; simp)] at h
    simp [h]
  case read =>
    intro q hq hqn
    have h := hi.read q hq hqn
    rw [if_neg (by rw [hidle]; simp)] at h
    simpa [hq.ne'] using h
  case read_prefix =>
    intro q hq _ hc
    dsimp only at hc
    rw [Function.update_self] at hc
    simp [hq.ne'] at hc
  case arrived_count =>
    intro _
    dsimp only
    rw [Finset.filter_congr (q := fun q => q = 0) (fun q _ => by simp), Finset.filter_eq',
      if_pos (Finset.mem_range.mpr hn), Finset.card_singleton]
  case client_idle =>
    intro q hq hqn hq'
    dsimp only at hq' ⊢
    rw [Function.update_of_ne hq.ne'] at hq' ⊢
    exact hi.client_idle q hq hqn hq'
  case client_busy =>
    intro q hq hqn hq'
    dsimp only at hq' ⊢
    rw [Function.update_of_ne hq.ne'] at hq' ⊢
    obtain ⟨hc, hd | ⟨S, hS, hdone, hSv⟩⟩ := hi.client_busy q hq hqn hq'
    · exact ⟨hc, .inl hd⟩
    · exact ⟨hc, .inr ⟨S, hS, hdone, fun r' key' => (hSv r' key').trans (hpub le_rfl r' key').symm⟩⟩
  case store =>
    intro q hq hqn r' key'
    dsimp only
    rw [Function.update_of_ne hq.ne', hpub (hi.done_le hq hqn)]
    exact hi.store q hq hqn r' key'
  case calls_ge =>
    intro r' hr'
    dsimp only
    rw [calls_update_barrier]
    exact (hi.calls_ge r' hr').trans (Nat.le_add_right _ _)

/-- A client calls the barrier: it sends its pending entries and its BARRIER and waits. -/
theorem Inv.barrier_client (hi : Inv n s) {r : Nat} (hr : 0 < r) (hrn : r < n)
    (hidle : s.pc r = .idle) :
    Inv n { s with
      pc := Function.update s.pc r .in_barrier
      up := Function.update s.up r (s.up r ++ barrier_msgs r (s.g_pending_kvs r))
      hist := Function.update s.hist r (s.hist r ++ [.barrier]) } := by
  have hpub : ∀ {k}, k ≤ s.done 0 → ∀ q key',
      published (Function.update s.hist r (s.hist r ++ [.barrier]) q) k key' =
        published (s.hist q) k key' :=
    fun hk q key' => published_update s.hist r q _ (hk.trans (hi.calls_ge r hrn)) key'
  obtain ⟨hdown, hdone, hcalls⟩ := hi.client_idle r hr hrn hidle
  constructor
  case outside =>
    intro q hq
    dsimp only
    rw [Function.update_of_ne (by omega)]
    exact hi.outside q hq
  case log =>
    intro q hq
    dsimp only
    by_cases hqr : q = r
    · subst hqr
      rw [Function.update_self, Function.update_self, ← List.append_assoc, hi.log q hq,
        sendLog_append_barrier, hi.pending_idle q hidle]
    · rw [Function.update_of_ne hqr, Function.update_of_ne hqr]
      exact hi.log q hq
  case pending_idle =>
    intro q hq
    dsimp only at hq ⊢
    have hqr : q ≠ r := by
      rintro rfl
      simp at hq
    rw [Function.update_of_ne hqr] at hq ⊢
    exact hi.pending_idle q hq
  case pending_busy =>
    intro q hq
    dsimp only at hq ⊢
    by_cases hqr : q = r
    · subst hqr
      rw [Function.update_self, pendingAfter_append_barrier]
    · rw [Function.update_of_ne hqr] at hq ⊢
      exact hi.pending_busy q hq
  case pending_zero =>
    intro h
    dsimp only at h
    rw [Function.update_of_ne hr.ne] at h
    exact hi.pending_zero h
  case master_self =>
    intro key
    dsimp only
    rw [Function.update_of_ne hr.ne]
    exact hi.master_self key
  case master => exact hi.master
  case calls_zero =>
    simp only [Function.update_of_ne hr.ne]
    exact hi.calls_zero
  case read =>
    intro q hq hqn
    simp only [Function.update_of_ne hr.ne]
    exact hi.read q hq hqn
  case read_prefix =>
    intro q hq hqn hc
    dsimp only at hc ⊢
    rw [Function.update_of_ne hr.ne] at hc
    by_cases hqr : q = r
    · subst hqr
      rw [Function.update_self, ← List.append_assoc,
        takeThrough_append_of_le _ (List.countP_append ▸ Nat.le_add_right _ _)]
      exact hi.read_prefix q hq hqn hc
    · rw [Function.update_of_ne hqr]
      exact hi.read_prefix q hq hqn hc
  case arrived_count =>
    intro h
    dsimp only at h
    rw [Function.update_of_ne hr.ne] at h
    exact hi.arrived_count h
  case client_idle =>
    intro q hq hqn hq'
    dsimp only at hq' ⊢
    have hqr : q ≠ r := by
      rintro rfl
      simp at hq'
    rw [Function.update_of_ne hqr] at hq' ⊢
    exact hi.client_idle q hq hqn hq'
  case client_busy =>
    intro q hq hqn hq'
    dsimp only at hq' ⊢
    by_cases hqr : q = r
    · subst hqr
      rw [Function.update_self, calls_append, hcalls]
      exact ⟨rfl, .inl ⟨hdown, hdone⟩⟩
    · rw [Function.update_of_ne hqr] at hq' ⊢
      obtain ⟨hc, hd | ⟨S, hS, hdone', hSv⟩⟩ := hi.client_busy q hq hqn hq'
      · exact ⟨hc, .inl hd⟩
      · exact ⟨hc, .inr ⟨S, hS, hdone', fun r' key' =>
          (hSv r' key').trans (hpub le_rfl r' key').symm⟩⟩
  case store =>
    intro q hq hqn r' key'
    dsimp only
    rw [hpub (hi.done_le hq hqn)]
    exact hi.store q hq hqn r' key'
  case calls_ge =>
    intro r' hr'
    dsimp only
    rw [calls_update_barrier]
    exact (hi.calls_ge r' hr').trans (Nat.le_add_right _ _)

/-- Rank 0 reads a PUBLISH from a client that has not arrived and stores the entry. -/
theorem Inv.serve_publish (hi : Inv n s) (h0 : s.pc 0 = .in_barrier) {r : Nat} (hr : 0 < r)
    (hrn : r < n) (harr : s.arrived r = false) {key : K} {value : V}
    {rest : List (wire_msg_t K V)} (hup : s.up r = .MSG_PUBLISH r key value :: rest) :
    Inv n { s with
      up := Function.update s.up r rest
      consumed := Function.update s.consumed r (s.consumed r ++ [.MSG_PUBLISH r key value])
      g_kvs := Function.update s.g_kvs 0 (Function.update (s.g_kvs 0) (r, key) (some value)) } := by
  constructor
  case outside =>
    intro q hq
    dsimp only
    rw [Function.update_of_ne (by omega)]
    exact hi.outside q hq
  case log =>
    intro q hq
    dsimp only
    by_cases hqr : q = r
    · subst hqr
      rw [Function.update_self, Function.update_self, List.append_assoc, List.singleton_append,
        ← hup, hi.log q hq]
    · rw [Function.update_of_ne hqr, Function.update_of_ne hqr]
      exact hi.log q hq
  case pending_idle => exact hi.pending_idle
  case pending_busy => exact hi.pending_busy
  case pending_zero => exact hi.pending_zero
  case master_self =>
    intro key'
    dsimp only
    rw [Function.update_self, Function.update_of_ne (by simp [hr.ne])]
    exact hi.master_self key'
  case master =>
    intro q hq key'
    dsimp only
    rw [Function.update_self]
    by_cases hqr : q = r
    · subst hqr
      rw [Function.update_self, List.filterMap_append, lastWrite_append, ← hi.master q hq]
      by_cases hk : key' = key
      · subst hk
        simp
      · simp [Function.update_of_ne (show (q, key') ≠ (q, key) by simp [hk]), Ne.symm hk]
    · rw [Function.update_of_ne (by simp [hqr]), Function.update_of_ne hqr]
      exact hi.master q hq key'
  case calls_zero => exact hi.calls_zero
  case read =>
    intro q hq hqn
    dsimp only
    by_cases hqr : q = r
    · subst hqr
      rw [Function.update_self, List.countP_append]
      simpa using hi.read q hq hqn
    · rw [Function.update_of_ne hqr]
      exact hi.read q hq hqn
  case read_prefix =>
    intro q hq hqn hc
    dsimp only at hc ⊢
    by_cases hqr : q = r
    · subst hqr
      rw [h0, harr] at hc
      simp at hc
    · rw [Function.update_of_ne hqr, Function.update_of_ne hqr]
      exact hi.read_prefix q hq hqn hc
  case arrived_count => exact hi.arrived_count
  case client_idle => exact hi.client_idle
  case client_busy => exact hi.client_busy
  case store =>
    intro q hq hqn r' key'
    dsimp only
    rw [Function.update_of_ne hq.ne']
    exact hi.store q hq hqn r' key'
  case calls_ge => exact hi.calls_ge

/-- Rank 0 reads the BARRIER of a client that has not arrived: the client has arrived. -/
theorem Inv.serve_barrier (hi : Inv n s) (h0 : s.pc 0 = .in_barrier) {r : Nat} (hr : 0 < r)
    (hrn : r < n) (harr : s.arrived r = false) {rest : List (wire_msg_t K V)}
    (hup : s.up r = .MSG_BARRIER r :: rest) :
    Inv n { s with
      up := Function.update s.up r rest
      consumed := Function.update s.consumed r (s.consumed r ++ [.MSG_BARRIER r])
      arrived := Function.update s.arrived r true
      arrived_count := s.arrived_count + 1 } := by
  constructor
  case outside =>
    intro q hq
    dsimp only
    rw [Function.update_of_ne (by omega)]
    exact hi.outside q hq
  case log =>
    intro q hq
    dsimp only
    by_cases hqr : q = r
    · subst hqr
      rw [Function.update_self, Function.update_self, List.append_assoc, List.singleton_append,
        ← hup, hi.log q hq]
    · rw [Function.update_of_ne hqr, Function.update_of_ne hqr]
      exact hi.log q hq
  case pending_idle => exact hi.pending_idle
  case pending_busy => exact hi.pending_busy
  case pending_zero => exact hi.pending_zero
  case master_self => exact hi.master_self
  case master =>
    intro q hq key
    dsimp only
    by_cases hqr : q = r
    · subst hqr
      rw [Function.update_self, List.filterMap_append, lastWrite_append, ← hi.master q hq,
        List.filterMap_cons_none (wire_msg_t.write?_MSG_BARRIER q), List.filterMap_nil,
        lastWrite_nil, Option.none_or]
    · rw [Function.update_of_ne hqr]
      exact hi.master q hq key
  case calls_zero => exact hi.calls_zero
  case read =>
    intro q hq hqn
    by_cases hqr : q = r
    · subst hqr
      have h := hi.read q hq hqn
      rw [harr] at h
      simp [List.countP_append, h, h0]
    · simp only [Function.update_of_ne hqr]
      exact hi.read q hq hqn
  case read_prefix =>
    intro q hq hqn hc
    dsimp only at hc ⊢
    by_cases hqr : q = r
    · subst hqr
      rw [Function.update_self, Function.update_self, List.countP_append, List.append_assoc,
        List.singleton_append]
      exact (takeThrough_append_marker _ _ rfl _).symm
    · rw [Function.update_of_ne hqr] at hc
      rw [Function.update_of_ne hqr, Function.update_of_ne hqr]
      exact hi.read_prefix q hq hqn hc
  case arrived_count =>
    intro _
    dsimp only
    rw [card_filter_update_true hrn harr, hi.arrived_count h0]
  case client_idle => exact hi.client_idle
  case client_busy => exact hi.client_busy
  case store => exact hi.store
  case calls_ge => exact hi.calls_ge

/-- At the end of a round every client has arrived, is waiting with nothing to receive, and has
returned from as many barriers as rank 0. -/
theorem Inv.waiting_of_arrived (hi : Inv n s) (h0 : s.pc 0 = .in_barrier) {q : Nat} (hq : 0 < q)
    (hqn : q < n) (harr : s.arrived q = true) :
    s.pc q = .in_barrier ∧ s.down q = [] ∧ s.done q = s.done 0 := by
  have hread := hi.read q hq hqn
  rw [if_pos ⟨h0, harr⟩] at hread
  have hle : s.done 0 + 1 ≤ calls (s.hist q) := hread ▸ hi.read_le hq
  cases hpc : s.pc q with
  | idle =>
    obtain ⟨-, hd, hc⟩ := hi.client_idle q hq hqn hpc
    omega
  | in_barrier =>
    obtain ⟨hc, ⟨hd, hdone⟩ | ⟨-, -, hdone, -⟩⟩ := hi.client_busy q hq hqn hpc
    · exact ⟨rfl, hd, hdone⟩
    · omega

/-- Rank 0 leaves its loop once every rank has arrived and sends each client the store. -/
theorem Inv.release (hi : Inv n s) (h0 : s.pc 0 = .in_barrier) (hcount : n ≤ s.arrived_count) :
    Inv n { s with
      pc := Function.update s.pc 0 .idle
      down := fun q => if 0 < q ∧ q < n then s.down q ++ [s.g_kvs 0] else s.down q
      done := Function.update s.done 0 (s.done 0 + 1) } := by
  have hall := all_of_card_filter (hi.arrived_count h0 ▸ hcount)
  have hcalls0 : calls (s.hist 0) = s.done 0 + 1 := by
    simpa [h0] using hi.calls_zero
  have hread : ∀ q, 0 < q → q < n →
      (s.consumed q).countP wire_msg_t.isBarrier = s.done 0 + 1 := fun q hq hqn => by
    simpa [h0, hall q hqn] using hi.read q hq hqn
  have hS := hi.master_published hcalls0 fun q hq hqn => ⟨.inr (hall q hqn), hread q hq hqn⟩
  constructor
  case outside => exact hi.outside
  case log => exact hi.log
  case pending_idle =>
    intro q hq
    dsimp only at hq ⊢
    by_cases hq0 : q = 0
    · subst hq0
      rw [hi.pending_zero h0, hi.pending_busy 0 h0]
    · rw [Function.update_of_ne hq0] at hq
      exact hi.pending_idle q hq
  case pending_busy =>
    intro q hq
    dsimp only at hq
    have hq0 : q ≠ 0 := by
      rintro rfl
      simp at hq
    rw [Function.update_of_ne hq0] at hq
    exact hi.pending_busy q hq
  case pending_zero =>
    intro h
    dsimp only at h
    simp at h
  case master_self => exact hi.master_self
  case master => exact hi.master
  case calls_zero => simp [hcalls0]
  case read =>
    intro q hq hqn
    simp [hread q hq hqn]
  case read_prefix =>
    intro q hq hqn _
    exact hi.read_prefix q hq hqn (.inr (hall q hqn))
  case arrived_count =>
    intro h
    dsimp only at h
    simp at h
  case client_idle =>
    intro q hq hqn hq'
    dsimp only at hq'
    rw [Function.update_of_ne hq.ne', (hi.waiting_of_arrived h0 hq hqn (hall q hqn)).1] at hq'
    cases hq'
  case client_busy =>
    intro q hq hqn _
    obtain ⟨hpc, hdown, hdone⟩ := hi.waiting_of_arrived h0 hq hqn (hall q hqn)
    dsimp only
    rw [if_pos ⟨hq, hqn⟩, hdown, Function.update_of_ne hq.ne', Function.update_self, hdone]
    refine ⟨hdone ▸ (hi.client_busy q hq hqn hpc).1, .inr ⟨s.g_kvs 0, rfl, rfl, hS⟩⟩
  case store =>
    intro q hq hqn r' key'
    dsimp only
    rw [Function.update_of_ne hq.ne']
    exact hi.store q hq hqn r' key'
  case calls_ge =>
    intro r' hr'
    dsimp only
    rw [Function.update_self]
    rcases Nat.eq_zero_or_pos r' with rfl | hr
    · exact hcalls0.ge
    · exact hread r' hr hr' ▸ hi.read_le hr

/-- A waiting client receives its snapshot, makes it its store, clears its pending map and
returns. -/
theorem Inv.recv (hi : Inv n s) {r : Nat} (hr : 0 < r) (hrn : r < n)
    (hbusy : s.pc r = .in_barrier) {S : Nat × K → Option V} {rest : List (Nat × K → Option V)}
    (hdown : s.down r = S :: rest) :
    Inv n { s with
      pc := Function.update s.pc r .idle
      g_kvs := Function.update s.g_kvs r S
      g_pending_kvs := Function.update s.g_pending_kvs r []
      down := Function.update s.down r rest
      done := Function.update s.done r (s.done r + 1) } := by
  obtain ⟨hcalls, hd⟩ := hi.client_busy r hr hrn hbusy
  obtain ⟨S', hS', hdone, hSv⟩ : ∃ S', s.down r = [S'] ∧ s.done r + 1 = s.done 0 ∧
      ∀ r' key, S' (r', key) = published (s.hist r') (s.done 0) key := by
    rcases hd with ⟨hnil, -⟩ | h
    · rw [hnil] at hdown
      cases hdown
    · exact h
  rw [hS'] at hdown
  obtain ⟨rfl, rfl⟩ := List.cons.inj hdown
  constructor
  case outside => exact hi.outside
  case log => exact hi.log
  case pending_idle =>
    intro q hq
    dsimp only at hq ⊢
    by_cases hqr : q = r
    · subst hqr
      rw [Function.update_self, hi.pending_busy q hbusy]
    · rw [Function.update_of_ne hqr] at hq ⊢
      exact hi.pending_idle q hq
  case pending_busy =>
    intro q hq
    dsimp only at hq
    have hqr : q ≠ r := by
      rintro rfl
      simp at hq
    rw [Function.update_of_ne hqr] at hq
    exact hi.pending_busy q hq
  case pending_zero =>
    intro h
    dsimp only at h ⊢
    rw [Function.update_of_ne hr.ne] at h ⊢
    exact hi.pending_zero h
  case master_self =>
    intro key
    dsimp only
    rw [Function.update_of_ne hr.ne]
    exact hi.master_self key
  case master =>
    intro q hq key
    dsimp only
    rw [Function.update_of_ne hr.ne]
    exact hi.master q hq key
  case calls_zero =>
    simp only [Function.update_of_ne hr.ne]
    exact hi.calls_zero
  case read =>
    intro q hq hqn
    simp only [Function.update_of_ne hr.ne]
    exact hi.read q hq hqn
  case read_prefix =>
    intro q hq hqn hc
    dsimp only at hc
    rw [Function.update_of_ne hr.ne] at hc
    exact hi.read_prefix q hq hqn hc
  case arrived_count =>
    intro h
    dsimp only at h
    rw [Function.update_of_ne hr.ne] at h
    exact hi.arrived_count h
  case client_idle =>
    intro q hq hqn hq'
    dsimp only at hq' ⊢
    rw [Function.update_of_ne hr.ne]
    by_cases hqr : q = r
    · subst hqr
      rw [Function.update_self, Function.update_self, hcalls]
      exact ⟨rfl, hdone, rfl⟩
    · rw [Function.update_of_ne hqr] at hq' ⊢
      rw [Function.update_of_ne hqr]
      exact hi.client_idle q hq hqn hq'
  case client_busy =>
    intro q hq hqn hq'
    dsimp only at hq' ⊢
    have hqr : q ≠ r := by
      rintro rfl
      simp at hq'
    rw [Function.update_of_ne hqr] at hq' ⊢
    rw [Function.update_of_ne hqr, Function.update_of_ne hr.ne]
    exact hi.client_busy q hq hqn hq'
  case store =>
    intro q hq hqn r' key
    dsimp only
    by_cases hqr : q = r
    · subst hqr
      rw [Function.update_self, Function.update_self, hdone]
      exact hSv r' key
    · rw [Function.update_of_ne hqr, Function.update_of_ne hqr]
      exact hi.store q hq hqn r' key
  case calls_ge =>
    intro r' hr'
    dsimp only
    rw [Function.update_of_ne hr.ne]
    exact hi.calls_ge r' hr'

/-- Rank 0 reads one message: a PUBLISH of the connection's own rank, or its BARRIER. -/
theorem Inv.serve (hi : Inv n s) {r : Nat} {s' : State K V} (h : step n s (.serve r) = some s') :
    Inv n s' := by
  obtain ⟨⟨h0, hr, hrn, harr⟩, h⟩ := Option.ite_none_right_eq_some.mp h
  split at h
  · cases h
  · rename_i m rest hup
    cases m with
    | MSG_PUBLISH rank key value =>
      simp [serve_msg, store_remote_publish] at h
      obtain ⟨rfl, rfl⟩ := h
      exact hi.serve_publish h0 hr hrn harr hup
    | MSG_BARRIER rank =>
      simp [serve_msg] at h
      obtain ⟨rfl, rfl⟩ := h
      exact hi.serve_barrier h0 hr hrn harr hup

theorem Inv.of_step (hi : Inv n s) {a : Action K V} {s' : State K V} (h : step n s a = some s') :
    Inv n s' := by
  cases a with
  | publish r key value =>
    obtain ⟨⟨hr, hidle⟩, h⟩ := Option.ite_none_right_eq_some.mp h
    cases h
    exact hi.publish hr hidle key value
  | barrier r =>
    obtain ⟨⟨hr, hidle⟩, h⟩ := Option.ite_none_right_eq_some.mp h
    by_cases hr0 : r = 0
    · subst hr0
      rw [if_pos rfl] at h
      cases h
      exact hi.barrier_zero hr hidle
    · rw [if_neg hr0] at h
      cases h
      exact hi.barrier_client (Nat.pos_of_ne_zero hr0) hr hidle
  | serve r => exact hi.serve h
  | release =>
    obtain ⟨⟨h0, hcount⟩, h⟩ := Option.ite_none_right_eq_some.mp h
    cases h
    exact hi.release h0 hcount
  | recv r =>
    obtain ⟨⟨hr, hrn, hbusy⟩, h⟩ := Option.ite_none_right_eq_some.mp h
    split at h
    · cases h
    · rename_i S rest hdown
      cases h
      exact hi.recv hr hrn hbusy hdown

theorem Reachable.inv (hs : Reachable n s) : Inv n s :=
  Machine.Reachable.induction_inv (fun _ h => h ▸ init_inv) (fun _ _ hi ⟨_, h⟩ => hi.of_step h) hs

/-- A rank outside a barrier answers from a store that holds each rank's publishes before its
`done p`-th barrier call. -/
theorem Inv.store_eq (hi : Inv n s) {p : Nat} (hp : p < n) (hidle : s.pc p = .idle) (r : Nat)
    (key : K) : s.g_kvs p (r, key) = published (s.hist r) (s.done p) key := by
  rcases Nat.eq_zero_or_pos p with rfl | hp0
  · have hcalls : calls (s.hist 0) = s.done 0 := by
      simpa [hidle] using hi.calls_zero
    refine hi.master_published hcalls (fun q hq hqn => ⟨.inl hidle, ?_⟩) r key
    simpa [hidle] using hi.read q hq hqn
  · exact hi.store p hp0 hp r key

end Run

/-- **The fence.** After rank `p` returns from its `k`-th barrier, `getname(r, key)` there gives
rank `r`'s last publish of `key` before `r`'s `k`-th barrier call, and fails if there is none;
every rank has made that call, and nothing it publishes after it changes the answer. -/
theorem getname_after_barrier {n : Nat} {s : State K V} (hs : Reachable n s) {p : Nat}
    (hp : p < n) (hidle : s.pc p = .idle) (r : Nat) (key : K) :
    getname n s p r key = published (s.hist r) (s.done p) key ∧
      (r < n → s.done p ≤ calls (s.hist r) ∧
        ∀ h', published (s.hist r ++ h') (s.done p) key = published (s.hist r) (s.done p) key) := by
  have hi := hs.inv
  have hdone : s.done p ≤ s.done 0 := by
    rcases Nat.eq_zero_or_pos p with rfl | hp0
    · exact le_rfl
    · exact hi.done_le hp0 hp
  have hcalls : ∀ r < n, s.done p ≤ calls (s.hist r) := fun r hr => hdone.trans (hi.calls_ge r hr)
  refine ⟨?_, fun hr => ⟨hcalls r hr, fun h' => published_append _ (hcalls r hr) h' key⟩⟩
  rw [getname]
  split_ifs with hr
  · exact hi.store_eq hp hidle r key
  · rw [(hi.outside r (by omega)).1, published_nil]

theorem getname_after_barrier_two :
    let s := ([.publish 1 7 8, .barrier 1, .barrier 0, .serve 1, .serve 1, .release, .recv 1].foldlM
      (step 2) (State.init : State Nat Nat)).getD State.init
    Reachable 2 s ∧ s.pc 1 = .idle ∧
      (getname 2 s 1 1 7 = published (s.hist 1) (s.done 1) 7 ∧
        (1 < 2 → s.done 1 ≤ calls (s.hist 1) ∧
          ∀ h', published (s.hist 1 ++ h') (s.done 1) 7 = published (s.hist 1) (s.done 1) 7)) :=
  have hs : Reachable 2 (([.publish 1 7 8, .barrier 1, .barrier 0, .serve 1, .serve 1, .release,
      .recv 1].foldlM (step 2) (State.init : State Nat Nat)).getD State.init) :=
    Machine.Reachable.of_foldlM (.init rfl)
      [.publish 1 7 8, .barrier 1, .barrier 0, .serve 1, .serve 1, .release, .recv 1] rfl
  have hidle : (([.publish 1 7 8, .barrier 1, .barrier 0, .serve 1, .serve 1, .release,
      .recv 1].foldlM (step 2) (State.init : State Nat Nat)).getD State.init).pc 1 = .idle := rfl
  ⟨hs, hidle, getname_after_barrier hs (by decide) hidle 1 7⟩

example :
    (([.publish 1 7 8, .barrier 1, .barrier 0, .serve 1, .serve 1, .release, .recv 1].foldlM
      (step 2) (State.init : State Nat Nat)).map fun s => getname 2 s 1 1 7) = some (some 8) := by
  decide

end Lci.PmiTcp
