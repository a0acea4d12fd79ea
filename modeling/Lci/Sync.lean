import Lci.Machine
import Lci.RingWindow

/-! The synchronizer `sync_t` (`src/comp/sync.hpp`): `signal` takes a position from `m_top`,
stores its status at the position's offset from `m_tail` and counts itself in `m_top2`; `test`
succeeds when `m_top2` is `threshold` past `m_tail`, moves `m_tail` up by compare-and-swap and
copies the statuses out. With a threshold of 1, `signal` skips `m_top` and `m_tail` and stores at
slot 0. Every call is a thread of its own, stepped one atomic access at a time, and the rounds are
the caller's: at most `threshold` signals between two successful tests. -/

namespace Lci.Sync

open Lci.Machine Lci.Ring

variable {σ : Type}

/-- A `signal(status)` call between its atomic steps. -/
inductive SignalPc (σ : Type) where
  /-- called, about to `m_top.fetch_add` (or, with a threshold of 1, to store) -/
  | start (status : σ)
  /-- holds its position, about to load `m_tail` -/
  | loading (status : σ) (pos : Nat)
  /-- about to check `pos < tail + threshold` and store at `pos - tail` -/
  | storing (status : σ) (pos tail : Nat)
  /-- stored at `index`, about to `m_top2.fetch_add` -/
  | counting (status : σ) (index : Nat)
  /-- returned -/
  | done (status : σ) (index : Nat)
  /-- `LCI_Assert` fired: more signals than expected -/
  | failed (status : σ)

/-- A `test(p_out)` call between its atomic steps; `p_out` says whether the caller gave an
output array. -/
inductive TestPc (σ : Type) where
  | idle
  /-- called, about to load `m_top2` -/
  | start (p_out : Bool)
  /-- about to load `m_tail` and compare -/
  | loading_tail (p_out : Bool) (top2 : Nat)
  /-- about to `compare_exchange_weak(tail, top2)` on `m_tail` -/
  | exchanging (p_out : Bool) (top2 tail : Nat)
  /-- won the exchange, about to copy the statuses out -/
  | copying (p_out : Bool)
  /-- returned `result`, with the statuses copied out when it succeeded with an array -/
  | returned (result : Bool) (out : Option (List σ))

/-- `sync_t`: its three counters, its threshold and its status slots. The counters are
`uint64_t`s that never come near wrapping. -/
structure sync_t (σ : Type) where
  m_top : Nat
  m_top2 : Nat
  m_tail : Nat
  threshold : Nat
  statuses : List σ

/-- The constructor: counters at 0 and `threshold` default statuses. -/
def sync_t.init [Inhabited σ] (threshold : Nat) : sync_t σ :=
  ⟨0, 0, 0, threshold, List.replicate threshold default⟩

/-- One atomic step of `signal`. -/
def signal_step (s : sync_t σ) : SignalPc σ → Option (sync_t σ × SignalPc σ)
  | .start status =>
    if 1 < s.threshold then some ({ s with m_top := s.m_top + 1 }, .loading status s.m_top)
    else some (s, .storing status 0 0)
  | .loading status pos => some (s, .storing status pos s.m_tail)
  | .storing status pos tail =>
    if pos < tail + s.threshold then
      some ({ s with statuses := s.statuses.set (pos - tail) status },
        .counting status (pos - tail))
    else some (s, .failed status)
  | .counting status index => some ({ s with m_top2 := s.m_top2 + 1 }, .done status index)
  | .done _ _ | .failed _ => none

/-- One atomic step of `test`; `spurious` is a spurious failure of the weak exchange. -/
def test_step (s : sync_t σ) (spurious : Bool) : TestPc σ → Option (sync_t σ × TestPc σ)
  | .start p_out => some (s, .loading_tail p_out s.m_top2)
  | .loading_tail p_out top2 =>
    if top2 ≠ s.m_tail + s.threshold then some (s, .returned false none)
    else some (s, .exchanging p_out top2 s.m_tail)
  | .exchanging p_out top2 tail =>
    if !spurious && s.m_tail == tail then some ({ s with m_tail := top2 }, .copying p_out)
    else some (s, .returned false none)
  | .copying p_out =>
    some (s, .returned true (if p_out then some (s.statuses.take s.threshold) else none))
  | .idle | .returned _ _ => none

/-- The status a signal call carries. -/
def SignalPc.status : SignalPc σ → σ
  | .start v | .loading v _ | .storing v _ _ | .counting v _ | .done v _ | .failed v => v

/-- The slot a signal call owns once it holds a position, `base` being where its round starts. -/
def SignalPc.slot (base : Nat) : SignalPc σ → Option Nat
  | .start _ | .failed _ => none
  | .loading _ pos => some (pos - base)
  | .storing _ pos tail => some (pos - tail)
  | .counting _ index | .done _ index => some index

/-- The call has taken its position from `m_top` (or stored, on the fast path). -/
def SignalPc.isStarted : SignalPc σ → Bool
  | .start _ => false
  | _ => true

/-- The call has counted itself in `m_top2`. -/
def SignalPc.isDone : SignalPc σ → Bool
  | .done _ _ => true
  | _ => false

/-- The slot a call stored its status at, and the status. -/
def SignalPc.written : SignalPc σ → Option (Nat × σ)
  | .counting v index | .done v index => some (index, v)
  | _ => none

/-- The calls in flight: the signals of the current round (those of closed rounds have all
returned), every test call by its id, and, as ghost state, for every closed round the statuses its
signals carried and what its successful test copied out. -/
structure State (σ : Type) where
  sync : sync_t σ
  signals : List (SignalPc σ)
  tests : Nat → TestPc σ
  closed : List (List σ × Option (List σ))

/-- Where the current round's positions start. -/
def State.base (s : State σ) : Nat := s.sync.threshold * s.closed.length

/-- A successful test returned: its round is closed and the next round's signals may start. -/
def State.close (s : State σ) (out : Option (List σ)) : State σ :=
  { s with signals := [], closed := s.closed ++ [(s.signals.map SignalPc.status, out)] }

/-- What can happen next: a new signal call (the caller's rounds allow one only while the round
has fewer than `threshold`), a new test call, or a call's next atomic step. -/
inductive Action (σ : Type) where
  | signal (status : σ)
  | test (id : Nat) (p_out : Bool)
  | run_signal (i : Nat)
  | run_test (id : Nat) (spurious : Bool)

def step (s : State σ) : Action σ → Option (State σ)
  | .signal status =>
    if s.signals.length < s.sync.threshold then
      some { s with signals := s.signals ++ [.start status] }
    else none
  | .test id p_out =>
    match s.tests id with
    | .idle => some { s with tests := Function.update s.tests id (.start p_out) }
    | _ => none
  | .run_signal i =>
    match s.signals[i]? with
    | some pc =>
      (signal_step s.sync pc).map fun r => { s with sync := r.1, signals := s.signals.set i r.2 }
    | none => none
  | .run_test id spurious =>
    (test_step s.sync spurious (s.tests id)).map fun r =>
      let s' := { s with sync := r.1, tests := Function.update s.tests id r.2 }
      match r.2 with
      | .returned true out => s'.close out
      | _ => s'

/-- No call yet, on a `sync_t` of the given threshold. -/
def init [Inhabited σ] (threshold : Nat) : State σ :=
  ⟨sync_t.init threshold, [], fun _ => .idle, []⟩

def Reachable [Inhabited σ] (threshold : Nat) : State σ → Prop :=
  Machine.Reachable (· = init threshold) (fun s s' => ∃ a, step s a = some s')

/-! ### What one step can do -/

section Steps

variable {sync sync' : sync_t σ}

theorem signal_step_cases {pc pc' : SignalPc σ} (h : signal_step sync pc = some (sync', pc')) :
    (∃ v, pc = .start v ∧ 1 < sync.threshold ∧ sync' = { sync with m_top := sync.m_top + 1 } ∧
      pc' = .loading v sync.m_top) ∨
    (∃ v, pc = .start v ∧ sync.threshold ≤ 1 ∧ sync' = sync ∧ pc' = .storing v 0 0) ∨
    (∃ v pos, pc = .loading v pos ∧ sync' = sync ∧ pc' = .storing v pos sync.m_tail) ∨
    (∃ v pos tail, pc = .storing v pos tail ∧ pos < tail + sync.threshold ∧
      sync' = { sync with statuses := sync.statuses.set (pos - tail) v } ∧
      pc' = .counting v (pos - tail)) ∨
    (∃ v pos tail, pc = .storing v pos tail ∧ tail + sync.threshold ≤ pos ∧ sync' = sync ∧
      pc' = .failed v) ∨
    (∃ v index, pc = .counting v index ∧ sync' = { sync with m_top2 := sync.m_top2 + 1 } ∧
      pc' = .done v index) := by
  cases pc with
  | start v =>
    simp only [signal_step] at h
    split_ifs at h with hk
    · cases h
      exact .inl ⟨v, rfl, hk, rfl, rfl⟩
    · cases h
      exact .inr (.inl ⟨v, rfl, by omega, rfl, rfl⟩)
  | loading v pos =>
    cases h
    exact .inr (.inr (.inl ⟨v, pos, rfl, rfl, rfl⟩))
  | storing v pos tail =>
    simp only [signal_step] at h
    split_ifs at h with hlt
    · cases h
      exact .inr (.inr (.inr (.inl ⟨v, pos, tail, rfl, hlt, rfl, rfl⟩)))
    · cases h
      exact .inr (.inr (.inr (.inr (.inl ⟨v, pos, tail, rfl, by omega, rfl, rfl⟩))))
  | counting v index =>
    cases h
    exact .inr (.inr (.inr (.inr (.inr ⟨v, index, rfl, rfl, rfl⟩))))
  | done v index => cases h
  | failed v => cases h

theorem test_step_cases {spurious : Bool} {pc pc' : TestPc σ}
    (h : test_step sync spurious pc = some (sync', pc')) :
    (∃ p, pc = .start p ∧ sync' = sync ∧ pc' = .loading_tail p sync.m_top2) ∨
    (∃ p top2, pc = .loading_tail p top2 ∧ top2 ≠ sync.m_tail + sync.threshold ∧ sync' = sync ∧
      pc' = .returned false none) ∨
    (∃ p top2, pc = .loading_tail p top2 ∧ top2 = sync.m_tail + sync.threshold ∧ sync' = sync ∧
      pc' = .exchanging p top2 sync.m_tail) ∨
    (∃ p top2 tail, pc = .exchanging p top2 tail ∧ spurious = false ∧ sync.m_tail = tail ∧
      sync' = { sync with m_tail := top2 } ∧ pc' = .copying p) ∨
    (∃ p top2 tail, pc = .exchanging p top2 tail ∧ sync' = sync ∧ pc' = .returned false none) ∨
    (∃ p, pc = .copying p ∧ sync' = sync ∧
      pc' = .returned true (if p then some (sync.statuses.take sync.threshold) else none)) := by
  cases pc with
  | idle => cases h
  | start p =>
    cases h
    exact .inl ⟨p, rfl, rfl, rfl⟩
  | loading_tail p top2 =>
    simp only [test_step] at h
    split_ifs at h with hne
    · cases h
      exact .inr (.inl ⟨p, top2, rfl, hne, rfl, rfl⟩)
    · cases h
      exact .inr (.inr (.inl ⟨p, top2, rfl, not_not.mp hne, rfl, rfl⟩))
  | exchanging p top2 tail =>
    simp only [test_step] at h
    split_ifs at h with hwin
    · cases h
      simp only [Bool.and_eq_true, Bool.not_eq_true', beq_iff_eq] at hwin
      exact .inr (.inr (.inr (.inl ⟨p, top2, tail, rfl, hwin.1, hwin.2, rfl, rfl⟩)))
    · cases h
      exact .inr (.inr (.inr (.inr (.inl ⟨p, top2, tail, rfl, rfl, rfl⟩))))
  | copying p =>
    cases h
    exact .inr (.inr (.inr (.inr (.inr ⟨p, rfl, rfl, rfl⟩))))
  | returned result out => cases h

variable {s s' : State σ}

theorem step_signal {v : σ} (h : step s (.signal v) = some s') :
    s.signals.length < s.sync.threshold ∧ s' = { s with signals := s.signals ++ [.start v] } := by
  simp only [step] at h
  split_ifs at h with hlt
  exact ⟨hlt, (Option.some.inj h).symm⟩

theorem step_test {id : Nat} {p : Bool} (h : step s (.test id p) = some s') :
    s.tests id = .idle ∧ s' = { s with tests := Function.update s.tests id (.start p) } := by
  simp only [step] at h
  split at h
  · exact ⟨‹_›, (Option.some.inj h).symm⟩
  · cases h

theorem step_run_signal {i : Nat} (h : step s (.run_signal i) = some s') :
    ∃ pc sync pc', s.signals[i]? = some pc ∧ signal_step s.sync pc = some (sync, pc') ∧
      s' = { s with sync := sync, signals := s.signals.set i pc' } := by
  simp only [step] at h
  split at h
  · rename_i pc hpc
    obtain ⟨⟨sync, pc'⟩, hstep, rfl⟩ := Option.map_eq_some_iff.mp h
    exact ⟨pc, sync, pc', hpc, hstep, rfl⟩
  · cases h

theorem step_run_test {id : Nat} {spurious : Bool} (h : step s (.run_test id spurious) = some s') :
    ∃ sync pc', test_step s.sync spurious (s.tests id) = some (sync, pc') ∧
      ((∃ out, pc' = .returned true out ∧
          s' = ({ s with sync := sync, tests := Function.update s.tests id pc' } : State σ).close
            out) ∨
        ((∀ out, pc' ≠ .returned true out) ∧
          s' = { s with sync := sync, tests := Function.update s.tests id pc' })) := by
  simp only [step] at h
  obtain ⟨⟨sync, pc'⟩, hstep, rfl⟩ := Option.map_eq_some_iff.mp h
  refine ⟨sync, pc', hstep, ?_⟩
  dsimp only
  split
  · exact .inl ⟨_, rfl, rfl⟩
  · rename_i hne
    exact .inr ⟨fun out heq => hne out heq, rfl⟩

end Steps

/-! ### The signals of a round -/

/-- The slot the `i`th signal call of the round owns. -/
def slotAt (base : Nat) (signals : List (SignalPc σ)) (i : Nat) : Option Nat :=
  signals[i]?.bind (SignalPc.slot base)

/-- Where the `i`th signal call of the round stored, and what. -/
def writtenAt (signals : List (SignalPc σ)) (i : Nat) : Option (Nat × σ) :=
  signals[i]?.bind SignalPc.written

theorem slot_of_written {pc : SignalPc σ} {w : Nat × σ} (base : Nat) (h : pc.written = some w) :
    pc.slot base = some w.1 := by
  cases pc <;> simp only [SignalPc.written, reduceCtorEq, Option.some.injEq] at h <;>
    simp [SignalPc.slot, ← h]

theorem slotAt_of_writtenAt {signals : List (SignalPc σ)} {i : Nat} {w : Nat × σ} (base : Nat)
    (h : writtenAt signals i = some w) : slotAt base signals i = some w.1 := by
  obtain ⟨pc, hpc, hw⟩ := Option.bind_eq_some_iff.mp h
  simp only [slotAt, hpc, Option.bind_some, slot_of_written base hw]

/-- The invariant of the round's signal calls, over the threshold `k`, the round's first position
`b`, the two counters they move and the status slots. Every call that holds a position owns a
slot of its own below `k`, below `m_top` past `b`; every stored status is still in its slot. -/
structure SignalInv (k b m_top m_top2 : Nat) (statuses : List σ) (signals : List (SignalPc σ)) :
    Prop where
  length_le : signals.length ≤ k
  top : 1 < k → m_top = b + signals.countP SignalPc.isStarted
  top2 : m_top2 = b + signals.countP SignalPc.isDone
  loading : ∀ v pos, .loading v pos ∈ signals → b ≤ pos
  storing : ∀ v pos tail, .storing v pos tail ∈ signals → tail ≤ pos
  slot_lt : ∀ i idx, slotAt b signals i = some idx → idx < k
  slot_top : 1 < k → ∀ i idx, slotAt b signals i = some idx → b + idx < m_top
  slot_distinct : ∀ i j idx, i ≠ j → slotAt b signals i = some idx → slotAt b signals j ≠ some idx
  stored : ∀ i w, writtenAt signals i = some w → statuses[w.1]? = some w.2
  not_failed : ∀ v, .failed v ∉ signals

namespace SignalInv

variable {k b m_top m_top2 : Nat} {statuses : List σ} {signals : List (SignalPc σ)}

theorem nil (htop : 1 < k → m_top = b) (htop2 : m_top2 = b) :
    SignalInv k b m_top m_top2 statuses [] where
  length_le := Nat.zero_le _
  top hk := by simp [htop hk]
  top2 := by simp [htop2]
  loading _ _ h := absurd h List.not_mem_nil
  storing _ _ _ h := absurd h List.not_mem_nil
  slot_lt _ _ h := by simp [slotAt] at h
  slot_top _ _ _ h := by simp [slotAt] at h
  slot_distinct _ _ _ _ h := by simp [slotAt] at h
  stored _ _ h := by simp [writtenAt] at h
  not_failed _ h := absurd h List.not_mem_nil

theorem append_start (h : SignalInv k b m_top m_top2 statuses signals) (hlt : signals.length < k)
    (v : σ) : SignalInv k b m_top m_top2 statuses (signals ++ [.start v]) := by
  have hslot : slotAt b (signals ++ [.start v]) = slotAt b signals :=
    funext (getElem?_bind_append_of_none rfl signals)
  have hwritten : writtenAt (signals ++ [.start v]) = writtenAt signals :=
    funext (getElem?_bind_append_of_none rfl signals)
  refine ⟨by simp; omega, fun hk => ?_, ?_, ?_, ?_, ?_, ?_, ?_, ?_, ?_⟩
  · simp [h.top hk, SignalPc.isStarted]
  · simp [h.top2, SignalPc.isDone]
  · simpa using h.loading
  · simpa using h.storing
  · simpa only [hslot] using h.slot_lt
  · simpa only [hslot] using h.slot_top
  · simpa only [hslot] using h.slot_distinct
  · simpa only [hwritten] using h.stored
  · simpa using h.not_failed

/-- `m_top.fetch_add`: the call takes the next position, whose slot no call of the round owns. -/
theorem fetch_add (h : SignalInv k b m_top m_top2 statuses signals) (hk : 1 < k) {i : Nat}
    {v : σ} (hi : signals[i]? = some (.start v)) :
    SignalInv k b (m_top + 1) m_top2 statuses (signals.set i (.loading v m_top)) := by
  obtain ⟨hlt, hget⟩ := List.getElem?_eq_some_iff.mp hi
  have htop := h.top hk
  have hcount : signals.countP SignalPc.isStarted < signals.length := by
    have := List.countP_le_length (p := SignalPc.isStarted) (l := signals.set i (.loading v m_top))
    rw [List.countP_set hlt, hget, List.length_set] at this
    simp only [SignalPc.isStarted, Bool.false_eq_true, ↓reduceIte, Nat.sub_zero] at this
    omega
  have hslot := getElem?_bind_set (f := SignalPc.slot b) hlt (.loading v m_top)
  have hwritten : writtenAt (signals.set i (.loading v m_top)) = writtenAt signals :=
    funext (getElem?_bind_set_of_eq hi rfl)
  refine ⟨by simpa using h.length_le, fun _ => ?_, ?_, ?_, ?_, ?_, ?_, ?_, ?_, ?_⟩
  · rw [List.countP_set hlt, hget]
    simp only [SignalPc.isStarted, Bool.false_eq_true, ↓reduceIte, Nat.sub_zero]
    omega
  · rw [List.countP_set hlt, hget]
    simp [SignalPc.isDone, h.top2]
  · intro v' pos hmem
    rcases List.mem_or_eq_of_mem_set hmem with hmem | heq
    · exact h.loading v' pos hmem
    · cases heq
      omega
  · intro v' pos tail hmem
    rcases List.mem_or_eq_of_mem_set hmem with hmem | heq
    · exact h.storing v' pos tail hmem
    · cases heq
  · intro j idx hj
    simp only [slotAt, hslot] at hj
    split_ifs at hj
    · cases hj
      have := h.length_le
      omega
    · exact h.slot_lt j idx hj
  · intro _ j idx hj
    simp only [slotAt, hslot] at hj
    split_ifs at hj
    · cases hj
      omega
    · have := h.slot_top hk j idx hj
      omega
  · -- the new slot is past every slot owned so far
    intro j j' idx hne hj hj'
    simp only [slotAt, hslot] at hj hj'
    split_ifs at hj hj' with h1 h2 h2
    · exact hne (h1.symm.trans h2)
    · cases hj
      have := h.slot_top hk j' _ hj'
      omega
    · cases hj'
      have := h.slot_top hk j _ hj
      omega
    · exact h.slot_distinct j j' idx hne hj hj'
  · simpa only [hwritten] using h.stored
  · intro v' hmem
    rcases List.mem_or_eq_of_mem_set hmem with hmem | heq
    · exact h.not_failed v' hmem
    · cases heq

theorem fast_path (h : SignalInv k b m_top m_top2 statuses signals) (hk : k ≤ 1) {i : Nat}
    {v : σ} (hi : signals[i]? = some (.start v)) :
    SignalInv k b m_top m_top2 statuses (signals.set i (.storing v 0 0)) := by
  obtain ⟨hlt, hget⟩ := List.getElem?_eq_some_iff.mp hi
  have hlen := h.length_le
  have hother : ∀ j, j ≠ i → signals[j]?.bind (SignalPc.slot b) = none := fun j hj => by
    simp [List.getElem?_eq_none (show signals.length ≤ j by omega)]
  have hslot := getElem?_bind_set (f := SignalPc.slot b) hlt (.storing v 0 0)
  have hwritten : writtenAt (signals.set i (.storing v 0 0)) = writtenAt signals :=
    funext (getElem?_bind_set_of_eq hi rfl)
  refine ⟨by simpa using hlen, fun hk' => absurd hk' (by omega), ?_, ?_, ?_, ?_, fun hk' =>
    absurd hk' (by omega), ?_, ?_, ?_⟩
  · rw [List.countP_set hlt, hget]
    simp [SignalPc.isDone, h.top2]
  · intro v' pos hmem
    rcases List.mem_or_eq_of_mem_set hmem with hmem | heq
    · exact h.loading v' pos hmem
    · cases heq
  · intro v' pos tail hmem
    rcases List.mem_or_eq_of_mem_set hmem with hmem | heq
    · exact h.storing v' pos tail hmem
    · cases heq
      exact le_refl 0
  · intro j idx hj
    simp only [slotAt, hslot] at hj
    split_ifs at hj
    · cases hj
      omega
    · exact h.slot_lt j idx hj
  · intro j j' idx hne hj hj'
    simp only [slotAt, hslot] at hj hj'
    split_ifs at hj hj' with h1 h2 h2
    · exact hne (h1.symm.trans h2)
    · rw [hother j' (Ne.symm h2)] at hj'
      cases hj'
    · rw [hother j (Ne.symm h1)] at hj
      cases hj
    · exact h.slot_distinct j j' idx hne hj hj'
  · simpa only [hwritten] using h.stored
  · intro v' hmem
    rcases List.mem_or_eq_of_mem_set hmem with hmem | heq
    · exact h.not_failed v' hmem
    · cases heq

/-- The load of `m_tail`, which is `b` while the round is open: the slot stays the same. -/
theorem load_tail (h : SignalInv k b m_top m_top2 statuses signals) {i : Nat} {v : σ} {pos : Nat}
    (hi : signals[i]? = some (.loading v pos)) :
    SignalInv k b m_top m_top2 statuses (signals.set i (.storing v pos b)) := by
  obtain ⟨hlt, hget⟩ := List.getElem?_eq_some_iff.mp hi
  have hslot : slotAt b (signals.set i (.storing v pos b)) = slotAt b signals :=
    funext (getElem?_bind_set_of_eq hi rfl)
  have hwritten : writtenAt (signals.set i (.storing v pos b)) = writtenAt signals :=
    funext (getElem?_bind_set_of_eq hi rfl)
  have hpos : b ≤ pos := h.loading v pos (List.mem_of_getElem? hi)
  refine ⟨by simpa using h.length_le, fun hk => ?_, ?_, ?_, ?_, ?_, ?_, ?_, ?_, ?_⟩
  · rw [countP_set_of_eq (a := .storing v pos b) hi rfl, h.top hk]
  · rw [countP_set_of_eq (a := .storing v pos b) hi rfl, h.top2]
  · intro v' pos' hmem
    rcases List.mem_or_eq_of_mem_set hmem with hmem | heq
    · exact h.loading v' pos' hmem
    · cases heq
  · intro v' pos' tail hmem
    rcases List.mem_or_eq_of_mem_set hmem with hmem | heq
    · exact h.storing v' pos' tail hmem
    · cases heq
      exact hpos
  · simpa only [hslot] using h.slot_lt
  · simpa only [hslot] using h.slot_top
  · simpa only [hslot] using h.slot_distinct
  · simpa only [hwritten] using h.stored
  · intro v' hmem
    rcases List.mem_or_eq_of_mem_set hmem with hmem | heq
    · exact h.not_failed v' hmem
    · cases heq

theorem storing_lt (h : SignalInv k b m_top m_top2 statuses signals) {i : Nat} {v : σ}
    {pos tail : Nat} (hi : signals[i]? = some (.storing v pos tail)) : pos < tail + k := by
  have htail := h.storing v pos tail (List.mem_of_getElem? hi)
  have hslot := h.slot_lt i (pos - tail) (by simp [slotAt, hi, SignalPc.slot])
  omega

theorem store (h : SignalInv k b m_top m_top2 statuses signals) (hlen : statuses.length = k)
    {i : Nat} {v : σ} {pos tail : Nat} (hi : signals[i]? = some (.storing v pos tail)) :
    SignalInv k b m_top m_top2 (statuses.set (pos - tail) v)
      (signals.set i (.counting v (pos - tail))) := by
  obtain ⟨hlt, hget⟩ := List.getElem?_eq_some_iff.mp hi
  have hslot : slotAt b (signals.set i (.counting v (pos - tail))) = slotAt b signals :=
    funext (getElem?_bind_set_of_eq hi rfl)
  have hwritten := getElem?_bind_set (f := SignalPc.written) hlt (.counting v (pos - tail))
  have hown : slotAt b signals i = some (pos - tail) := by simp [slotAt, hi, SignalPc.slot]
  refine ⟨by simpa using h.length_le, fun hk => ?_, ?_, ?_, ?_, ?_, ?_, ?_, ?_, ?_⟩
  · rw [countP_set_of_eq (a := .counting v (pos - tail)) hi rfl, h.top hk]
  · rw [countP_set_of_eq (a := .counting v (pos - tail)) hi rfl, h.top2]
  · intro v' pos' hmem
    rcases List.mem_or_eq_of_mem_set hmem with hmem | heq
    · exact h.loading v' pos' hmem
    · cases heq
  · intro v' pos' tail' hmem
    rcases List.mem_or_eq_of_mem_set hmem with hmem | heq
    · exact h.storing v' pos' tail' hmem
    · cases heq
  · simpa only [hslot] using h.slot_lt
  · simpa only [hslot] using h.slot_top
  · simpa only [hslot] using h.slot_distinct
  · -- the new status is in the call's slot; every other stored one is in another slot
    intro j w hj
    simp only [writtenAt, hwritten] at hj
    split_ifs at hj with hij
    · cases hj
      exact List.getElem?_set_self (by have := h.slot_lt i _ hown; omega)
    · have hne : pos - tail ≠ w.1 := fun heq =>
        h.slot_distinct i j (pos - tail) hij hown (heq ▸ slotAt_of_writtenAt b hj)
      rw [List.getElem?_set_ne hne]
      exact h.stored j w hj
  · intro v' hmem
    rcases List.mem_or_eq_of_mem_set hmem with hmem | heq
    · exact h.not_failed v' hmem
    · cases heq

theorem count (h : SignalInv k b m_top m_top2 statuses signals) {i : Nat} {v : σ} {idx : Nat}
    (hi : signals[i]? = some (.counting v idx)) :
    SignalInv k b m_top (m_top2 + 1) statuses (signals.set i (.done v idx)) := by
  obtain ⟨hlt, hget⟩ := List.getElem?_eq_some_iff.mp hi
  have hslot : slotAt b (signals.set i (.done v idx)) = slotAt b signals :=
    funext (getElem?_bind_set_of_eq hi rfl)
  have hwritten : writtenAt (signals.set i (.done v idx)) = writtenAt signals :=
    funext (getElem?_bind_set_of_eq hi rfl)
  refine ⟨by simpa using h.length_le, fun hk => ?_, ?_, ?_, ?_, ?_, ?_, ?_, ?_, ?_⟩
  · rw [countP_set_of_eq (a := .done v idx) hi rfl, h.top hk]
  · rw [List.countP_set hlt, hget, h.top2]
    simp [SignalPc.isDone]
    omega
  · intro v' pos' hmem
    rcases List.mem_or_eq_of_mem_set hmem with hmem | heq
    · exact h.loading v' pos' hmem
    · cases heq
  · intro v' pos' tail' hmem
    rcases List.mem_or_eq_of_mem_set hmem with hmem | heq
    · exact h.storing v' pos' tail' hmem
    · cases heq
  · simpa only [hslot] using h.slot_lt
  · simpa only [hslot] using h.slot_top
  · simpa only [hslot] using h.slot_distinct
  · simpa only [hwritten] using h.stored
  · intro v' hmem
    rcases List.mem_or_eq_of_mem_set hmem with hmem | heq
    · exact h.not_failed v' hmem
    · cases heq

theorem isStarted_of_isDone {pc : SignalPc σ} (h : pc.isDone) : pc.isStarted := by
  cases pc <;> simp_all [SignalPc.isDone, SignalPc.isStarted]

/-- Once the round's `threshold` calls have all returned, both counters are `threshold` past
`b`. -/
theorem counters_of_done (h : SignalInv k b m_top m_top2 statuses signals)
    (hlen : signals.length = k) (hdone : ∀ pc ∈ signals, pc.isDone) :
    m_top2 = b + k ∧ (1 < k → m_top = b + k) := by
  have hd : signals.countP SignalPc.isDone = k := hlen ▸ List.countP_eq_length.mpr hdone
  have hs : signals.countP SignalPc.isStarted = k :=
    hlen ▸ List.countP_eq_length.mpr fun pc hpc => isStarted_of_isDone (hdone pc hpc)
  exact ⟨by rw [h.top2, hd], fun hk => by rw [h.top hk, hs]⟩

/-- Once the round's `threshold` calls have all returned, the status slots hold exactly their
statuses, each once. -/
theorem perm_of_done (h : SignalInv k b m_top m_top2 statuses signals)
    (hlen : signals.length = k) (hdone : ∀ pc ∈ signals, pc.isDone)
    (hst : statuses.length = k) : (statuses.take k).Perm (signals.map SignalPc.status) := by
  let ps := signals.map fun pc => ((pc.slot b).getD 0, pc.status)
  have hwritten : ∀ pc ∈ signals, ∃ idx, pc.slot b = some idx ∧ pc.written = some (idx, pc.status) :=
    fun pc hpc => by
      have := hdone pc hpc
      cases pc <;> simp_all [SignalPc.isDone, SignalPc.written, SignalPc.slot, SignalPc.status]
  have hnodup : (ps.map Prod.fst).Nodup := by
    rw [List.nodup_iff_getElem?_ne_getElem?]
    intro i j hij hj heq
    simp only [ps, List.map_map, List.length_map] at heq hj
    obtain ⟨pc, hpc⟩ : ∃ pc, signals[i]? = some pc := ⟨_, List.getElem?_eq_getElem (by omega)⟩
    obtain ⟨pc', hpc'⟩ : ∃ pc', signals[j]? = some pc' := ⟨_, List.getElem?_eq_getElem hj⟩
    obtain ⟨idx, hs, -⟩ := hwritten pc (List.mem_of_getElem? hpc)
    obtain ⟨idx', hs', -⟩ := hwritten pc' (List.mem_of_getElem? hpc')
    simp only [List.getElem?_map, hpc, hpc', Option.map_some, Option.some.injEq,
      Function.comp, hs, hs', Option.getD_some] at heq
    apply h.slot_distinct i j idx (by omega) (by simp [slotAt, hpc, hs])
    simp [slotAt, hpc', hs', heq]
  have hget : ∀ p ∈ ps, statuses[p.1]? = some p.2 := by
    intro p hp
    obtain ⟨pc, hpc, rfl⟩ := List.mem_map.mp hp
    obtain ⟨i, hi⟩ := List.mem_iff_getElem?.mp hpc
    obtain ⟨idx, hs, hw⟩ := hwritten pc hpc
    have := h.stored i (idx, pc.status) (by simp [writtenAt, hi, hw])
    simpa [hs] using this
  have hsnd : ps.map Prod.snd = signals.map SignalPc.status := by
    rw [List.map_map]
    rfl
  rw [List.take_of_length_le (by omega), ← hsnd]
  exact perm_of_slots statuses ps (by simp [ps, hlen, hst]) hnodup hget

end SignalInv

/-! ### The invariant -/

/-- What holds in every reachable state: the round's signal calls keep `SignalInv`; `m_tail` is
the round's first position, and `threshold` past it once a test has won the exchange; one test
at most wins, and only once all the round's signals returned; what a test has read of the
counters is not ahead of them; and every closed round had `threshold` signals whose statuses its
test copied out. -/
structure Inv (s : State σ) : Prop where
  threshold_pos : 0 < s.sync.threshold
  statuses_length : s.sync.statuses.length = s.sync.threshold
  signals : SignalInv s.sync.threshold s.base s.sync.m_top s.sync.m_top2 s.sync.statuses s.signals
  tail_idle : (∀ id p, s.tests id ≠ .copying p) → s.sync.m_tail = s.base
  tail_copying : ∀ id p, s.tests id = .copying p → s.sync.m_tail = s.base + s.sync.threshold
  copying_unique : ∀ id id' p p', s.tests id = .copying p → s.tests id' = .copying p' → id = id'
  copying_done : ∀ id p, s.tests id = .copying p →
    s.signals.length = s.sync.threshold ∧ ∀ pc ∈ s.signals, pc.isDone
  test_top2 : ∀ id p top2, s.tests id = .loading_tail p top2 → top2 ≤ s.sync.m_top2
  test_cas : ∀ id p top2 tail, s.tests id = .exchanging p top2 tail →
    top2 = tail + s.sync.threshold ∧ top2 ≤ s.sync.m_top2 ∧ tail ≤ s.sync.m_tail
  closed : ∀ r ∈ s.closed, r.1.length = s.sync.threshold ∧ ∀ out, r.2 = some out → out.Perm r.1

theorem init_inv [Inhabited σ] {k : Nat} (hk : 0 < k) : Inv (init k : State σ) where
  threshold_pos := hk
  statuses_length := List.length_replicate
  signals := SignalInv.nil (fun _ => by simp [init, State.base, sync_t.init])
    (by simp [init, State.base, sync_t.init])
  tail_idle _ := by simp [init, State.base, sync_t.init]
  tail_copying _ _ h := by cases h
  copying_unique _ _ _ _ h := by cases h
  copying_done _ _ h := by cases h
  test_top2 _ _ _ h := by cases h
  test_cas _ _ _ _ h := by cases h
  closed _ h := absurd h List.not_mem_nil

variable {s : State σ}

/-- While a signal call of the round has not returned, no test has won the exchange. -/
theorem Inv.no_copier (hinv : Inv s) {pc : SignalPc σ} (hpc : pc ∈ s.signals)
    (hnd : pc.isDone = false) : ∀ id p, s.tests id ≠ .copying p := fun id p hc => by
  have := (hinv.copying_done id p hc).2 pc hpc
  rw [hnd] at this
  cases this

/-- A step of a signal call: the tests and the closed rounds stay, and so does `m_tail`. -/
theorem Inv.of_signals (hinv : Inv s) (hno : ∀ id p, s.tests id ≠ .copying p) {sync' : sync_t σ}
    {signals' : List (SignalPc σ)} (hk : sync'.threshold = s.sync.threshold)
    (htail : sync'.m_tail = s.sync.m_tail) (htop2 : s.sync.m_top2 ≤ sync'.m_top2)
    (hst : sync'.statuses.length = s.sync.threshold)
    (hsig : SignalInv s.sync.threshold s.base sync'.m_top sync'.m_top2 sync'.statuses signals') :
    Inv { s with sync := sync', signals := signals' } := by
  have hbase : ({ s with sync := sync', signals := signals' } : State σ).base = s.base := by
    simp only [State.base, hk]
  refine ⟨hk ▸ hinv.threshold_pos, hk ▸ hst, hbase ▸ hk ▸ hsig, fun _ => ?_,
    fun id p h => absurd h (hno id p), fun id _ p _ h => absurd h (hno id p),
    fun id p h => absurd h (hno id p), fun id p top2 h => ?_, fun id p top2 tail h => ?_,
    hk ▸ hinv.closed⟩
  · rw [hbase, htail, hinv.tail_idle hno]
  · exact (hinv.test_top2 id p top2 h).trans htop2
  · obtain ⟨h1, h2, h3⟩ := hinv.test_cas id p top2 tail h
    exact ⟨hk ▸ h1, h2.trans htop2, htail ▸ h3⟩

theorem Inv.signal (hinv : Inv s) (hlt : s.signals.length < s.sync.threshold) (v : σ) :
    Inv { s with signals := s.signals ++ [.start v] } := by
  have hno : ∀ id p, s.tests id ≠ .copying p := fun id p hc => by
    have := (hinv.copying_done id p hc).1
    omega
  exact hinv.of_signals hno rfl rfl le_rfl hinv.statuses_length
    (hinv.signals.append_start hlt v)

theorem Inv.run_signal (hinv : Inv s) {i : Nat} {pc pc' : SignalPc σ} {sync' : sync_t σ}
    (hi : s.signals[i]? = some pc) (hstep : signal_step s.sync pc = some (sync', pc')) :
    Inv { s with sync := sync', signals := s.signals.set i pc' } := by
  have hmem := List.mem_of_getElem? hi
  have hsig := hinv.signals
  rcases signal_step_cases hstep with ⟨v, rfl, hk, rfl, rfl⟩ | ⟨v, rfl, hk, rfl, rfl⟩ |
    ⟨v, pos, rfl, rfl, rfl⟩ | ⟨v, pos, tail, rfl, -, rfl, rfl⟩ | ⟨v, pos, tail, rfl, hge, -, -⟩ |
    ⟨v, idx, rfl, rfl, rfl⟩
  · exact hinv.of_signals (hinv.no_copier hmem rfl) rfl rfl le_rfl hinv.statuses_length
      (hsig.fetch_add hk hi)
  · exact hinv.of_signals (hinv.no_copier hmem rfl) rfl rfl le_rfl hinv.statuses_length
      (hsig.fast_path hk hi)
  · -- the round is open, so `m_tail` is where its positions start
    have hno := hinv.no_copier hmem rfl
    have htail := hinv.tail_idle hno
    rw [htail]
    exact hinv.of_signals hno rfl rfl le_rfl hinv.statuses_length (hsig.load_tail hi)
  · exact hinv.of_signals (hinv.no_copier hmem rfl) rfl rfl le_rfl
      (by simp [hinv.statuses_length]) (hsig.store hinv.statuses_length hi)
  · have := hsig.storing_lt hi
    omega
  · exact hinv.of_signals (hinv.no_copier hmem rfl) rfl rfl (Nat.le_succ _)
      hinv.statuses_length (hsig.count hi)

/-- A step of a test call that neither wins the exchange nor had won it: only that call moves. -/
theorem Inv.set_test (hinv : Inv s) {id : Nat} (hold : ∀ p, s.tests id ≠ .copying p)
    {pc : TestPc σ} (hnew : ∀ p, pc ≠ .copying p)
    (htop2 : ∀ p top2, pc = .loading_tail p top2 → top2 ≤ s.sync.m_top2)
    (hcas : ∀ p top2 tail, pc = .exchanging p top2 tail →
      top2 = tail + s.sync.threshold ∧ top2 ≤ s.sync.m_top2 ∧ tail ≤ s.sync.m_tail) :
    Inv { s with tests := Function.update s.tests id pc } := by
  have hcopy : ∀ id' p, Function.update s.tests id pc id' = .copying p ↔
      s.tests id' = .copying p := by
    intro id' p
    by_cases h : id' = id
    · subst h
      simp [hnew p, hold p]
    · simp [Function.update_of_ne h]
  refine ⟨hinv.threshold_pos, hinv.statuses_length, hinv.signals,
    fun hno => hinv.tail_idle fun id' p h => hno id' p ((hcopy id' p).mpr h),
    fun id' p h => hinv.tail_copying id' p ((hcopy id' p).mp h),
    fun id' id'' p p' h h' => hinv.copying_unique id' id'' p p' ((hcopy id' p).mp h)
      ((hcopy id'' p').mp h'),
    fun id' p h => hinv.copying_done id' p ((hcopy id' p).mp h), ?_, ?_, hinv.closed⟩
  · intro id' p top2 h
    by_cases hid : id' = id
    · subst hid
      exact htop2 p top2 (by simpa using h)
    · exact hinv.test_top2 id' p top2 (by simpa [Function.update_of_ne hid] using h)
  · intro id' p top2 tail h
    by_cases hid : id' = id
    · subst hid
      exact hcas p top2 tail (by simpa using h)
    · exact hinv.test_cas id' p top2 tail (by simpa [Function.update_of_ne hid] using h)

/-- A test wins the exchange: it reads the round complete, and it is the round's only winner. -/
theorem Inv.cas_win (hinv : Inv s) {id : Nat} {p : Bool} {top2 tail : Nat}
    (hid : s.tests id = .exchanging p top2 tail) (htail : s.sync.m_tail = tail) :
    Inv { s with sync := { s.sync with m_tail := top2 }
                 tests := Function.update s.tests id (.copying p) } := by
  obtain ⟨htop2, hle, -⟩ := hinv.test_cas id p top2 tail hid
  have hsig := hinv.signals
  have hcounted := hsig.top2
  have hdone_le := List.countP_le_length (p := SignalPc.isDone) (l := s.signals)
  have hlen := hsig.length_le
  have hpos := hinv.threshold_pos
  -- no test had won: a winner leaves `m_tail` a whole round ahead of `m_top2`
  have hno : ∀ id' p', s.tests id' ≠ .copying p' := fun id' p' hc => by
    have := hinv.tail_copying id' p' hc
    have := hsig.top2
    omega
  -- so the exchange read the round's first position, and every signal of the round returned
  have hbase := hinv.tail_idle hno
  have hcount : s.signals.countP SignalPc.isDone = s.signals.length := by
    have := hsig.top2
    omega
  have hall := List.countP_eq_length.mp hcount
  have hcopy : ∀ id' p', Function.update s.tests id (.copying p) id' = .copying p' → id' = id := by
    intro id' p' h
    by_contra hne
    exact hno id' p' (by simpa [Function.update_of_ne hne] using h)
  refine ⟨hinv.threshold_pos, hinv.statuses_length, hsig, fun hno' => absurd (by simp)
    (hno' id p), fun _ _ _ => ?_, fun id' id'' _ _ h h' =>
    (hcopy id' _ h).trans (hcopy id'' _ h').symm, fun _ _ _ => ⟨?_, hall⟩, ?_, ?_,
    hinv.closed⟩
  · show top2 = s.base + s.sync.threshold
    omega
  · show s.signals.length = s.sync.threshold
    omega
  · intro id' p' top2' h
    by_cases hid' : id' = id
    · subst hid'
      simp at h
    · exact hinv.test_top2 id' p' top2' (by simpa [Function.update_of_ne hid'] using h)
  · intro id' p' top2' tail' h
    by_cases hid' : id' = id
    · subst hid'
      simp at h
    · obtain ⟨h1, h2, h3⟩ := hinv.test_cas id' p' top2' tail'
        (by simpa [Function.update_of_ne hid'] using h)
      exact ⟨h1, h2, by simp only; omega⟩

/-- The winner copies the statuses out and returns true: the round is closed with exactly its
signals' statuses, and the next round starts `threshold` positions on. -/
theorem Inv.copy (hinv : Inv s) {id : Nat} {p : Bool} (hid : s.tests id = .copying p)
    {out : Option (List σ)} (hout : ∀ o, out = some o → o = s.sync.statuses.take s.sync.threshold) :
    Inv (({ s with tests := Function.update s.tests id (.returned true out) } : State σ).close out) := by
  have hsig := hinv.signals
  obtain ⟨hlen, hall⟩ := hinv.copying_done id p hid
  obtain ⟨htop2, htop⟩ := hsig.counters_of_done hlen hall
  have htail := hinv.tail_copying id p hid
  have hperm := hsig.perm_of_done hlen hall hinv.statuses_length
  have hno : ∀ id' p', Function.update s.tests id (.returned true out) id' ≠ .copying p' := by
    intro id' p' h
    by_cases hid' : id' = id
    · subst hid'
      simp at h
    · exact hid' (hinv.copying_unique id' id p' p (by simpa [Function.update_of_ne hid'] using h)
        hid)
  have hbase : (({ s with tests := Function.update s.tests id (.returned true out) } : State σ).close
      out).base = s.base + s.sync.threshold := by
    simp only [State.close, State.base, List.length_append, List.length_singleton]
    ring
  refine ⟨hinv.threshold_pos, hinv.statuses_length, ?_, fun _ => ?_,
    fun id' p' h => absurd h (hno id' p'), fun id' _ p' _ h => absurd h (hno id' p'),
    fun id' p' h => absurd h (hno id' p'), ?_, ?_, ?_⟩
  · rw [hbase]
    exact SignalInv.nil htop htop2
  · rw [hbase]
    exact htail
  · intro id' p' top2 h
    by_cases hid' : id' = id
    · subst hid'
      simp [State.close] at h
    · exact hinv.test_top2 id' p' top2 (by simpa [State.close, Function.update_of_ne hid'] using h)
  · intro id' p' top2 tail h
    by_cases hid' : id' = id
    · subst hid'
      simp [State.close] at h
    · exact hinv.test_cas id' p' top2 tail
        (by simpa [State.close, Function.update_of_ne hid'] using h)
  · intro r hr
    simp only [State.close, List.mem_append, List.mem_singleton] at hr
    rcases hr with hr | rfl
    · exact hinv.closed r hr
    · refine ⟨by simp [hlen, State.close], fun o ho => ?_⟩
      rw [hout o ho]
      exact hperm

theorem Inv.step (hinv : Inv s) {a : Action σ} {s' : State σ} (h : step s a = some s') :
    Inv s' := by
  cases a with
  | signal v =>
    obtain ⟨hlt, rfl⟩ := step_signal h
    exact hinv.signal hlt v
  | test id p =>
    obtain ⟨hidle, rfl⟩ := step_test h
    exact hinv.set_test (by simp [hidle]) (by simp) (by simp) (by simp)
  | run_signal i =>
    obtain ⟨pc, sync', pc', hi, hstep, rfl⟩ := step_run_signal h
    exact hinv.run_signal hi hstep
  | run_test id spurious =>
    obtain ⟨sync', pc', hstep, hs'⟩ := step_run_test h
    rcases test_step_cases hstep with ⟨p, hid, rfl, rfl⟩ | ⟨p, top2, hid, -, rfl, rfl⟩ |
      ⟨p, top2, hid, htop2, rfl, rfl⟩ | ⟨p, top2, tail, hid, -, htail, rfl, rfl⟩ |
      ⟨p, top2, tail, hid, rfl, rfl⟩ | ⟨p, hid, rfl, rfl⟩
    · obtain ⟨out, hout, -⟩ | ⟨-, rfl⟩ := hs'
      · cases hout
      · exact hinv.set_test (by simp [hid]) (by simp) (by simp) (by simp)
    · obtain ⟨out, hout, -⟩ | ⟨-, rfl⟩ := hs'
      · cases hout
      · exact hinv.set_test (by simp [hid]) (by simp) (by simp) (by simp)
    · obtain ⟨out, hout, -⟩ | ⟨-, rfl⟩ := hs'
      · cases hout
      · refine hinv.set_test (by simp [hid]) (by simp) (by simp) ?_
        rintro p' top2' tail' ⟨⟩
        exact ⟨htop2, hinv.test_top2 id p top2 hid, le_rfl⟩
    · obtain ⟨out, hout, -⟩ | ⟨-, rfl⟩ := hs'
      · cases hout
      · exact hinv.cas_win hid htail
    · obtain ⟨out, hout, -⟩ | ⟨-, rfl⟩ := hs'
      · cases hout
      · exact hinv.set_test (by simp [hid]) (by simp) (by simp) (by simp)
    · obtain ⟨out, hout, rfl⟩ | ⟨hne, -⟩ := hs'
      · cases hout
        refine hinv.copy hid fun o ho => ?_
        split_ifs at ho
        · exact (Option.some.inj ho).symm
      · exact absurd rfl (hne _)

theorem reachable_inv [Inhabited σ] {k : Nat} (hk : 0 < k) {s : State σ} (hs : Reachable k s) :
    Inv s :=
  Machine.Reachable.induction_inv (fun _ h => h ▸ init_inv hk)
    (fun _ _ hinv ⟨_, h⟩ => hinv.step h) hs

theorem step_threshold {a : Action σ} {s' : State σ} (h : step s a = some s') :
    s'.sync.threshold = s.sync.threshold := by
  cases a with
  | signal v => obtain ⟨-, rfl⟩ := step_signal h; rfl
  | test id p => obtain ⟨-, rfl⟩ := step_test h; rfl
  | run_signal i =>
    obtain ⟨pc, sync', pc', -, hstep, rfl⟩ := step_run_signal h
    rcases signal_step_cases hstep with ⟨_, _, _, rfl, _⟩ | ⟨_, _, _, rfl, _⟩ | ⟨_, _, _, rfl, _⟩ |
      ⟨_, _, _, _, _, rfl, _⟩ | ⟨_, _, _, _, _, rfl, _⟩ | ⟨_, _, _, rfl, _⟩ <;> rfl
  | run_test id spurious =>
    obtain ⟨sync', pc', hstep, hs'⟩ := step_run_test h
    have : sync'.threshold = s.sync.threshold := by
      rcases test_step_cases hstep with ⟨_, _, rfl, _⟩ | ⟨_, _, _, _, rfl, _⟩ |
        ⟨_, _, _, _, rfl, _⟩ | ⟨_, _, _, _, _, _, rfl, _⟩ | ⟨_, _, _, _, rfl, _⟩ |
        ⟨_, _, rfl, _⟩ <;> rfl
    obtain ⟨out, -, rfl⟩ | ⟨-, rfl⟩ := hs' <;> exact this

theorem reachable_threshold [Inhabited σ] {k : Nat} {s : State σ} (hs : Reachable k s) :
    s.sync.threshold = k := by
  induction hs with
  | init h => rw [h]; rfl
  | step _ hnext ih =>
    obtain ⟨_, h⟩ := hnext
    exact (step_threshold h).trans ih

/-- **Progress.** Once every signal of the round returned and no test holds the exchange, a new
test run alone, its exchange not failing spuriously, returns true with the statuses copied out
and closes the round. -/
theorem test_completes [Inhabited σ] {k : Nat} (hk : 0 < k) {s : State σ} (hs : Reachable k s)
    (hlen : s.signals.length = k) (hall : ∀ pc ∈ s.signals, pc.isDone)
    (hno : ∀ id p, s.tests id ≠ .copying p) {id : Nat} (hidle : s.tests id = .idle) (p : Bool) :
    let out := if p then some (s.sync.statuses.take k) else none
    ∃ s', Reachable k s' ∧ s'.tests id = .returned true out ∧
      s'.closed = s.closed ++ [(s.signals.map SignalPc.status, out)] ∧ s'.signals = [] := by
  intro out
  have hinv := reachable_inv hk hs
  have hk' := reachable_threshold hs
  have htop2 := (hinv.signals.counters_of_done (hk' ▸ hlen) hall).1
  have htail := hinv.tail_idle hno
  let s1 : State σ := { s with tests := Function.update s.tests id (.start p) }
  let s2 : State σ := { s with tests := Function.update s.tests id (.loading_tail p s.sync.m_top2) }
  let s3 : State σ :=
    { s with tests := Function.update s.tests id (.exchanging p s.sync.m_top2 s.sync.m_tail) }
  let s4 : State σ :=
    { s with sync := { s.sync with m_tail := s.sync.m_top2 }
             tests := Function.update s.tests id (.copying p) }
  let s5 : State σ :=
    ({ s4 with tests := Function.update s.tests id (.returned true out) } : State σ).close out
  have h1 : step s (.test id p) = some s1 := by simp [step, hidle, s1]
  have h2 : step s1 (.run_test id false) = some s2 := by simp [step, test_step, s1, s2]
  have h3 : step s2 (.run_test id false) = some s3 := by
    simp [step, test_step, s2, s3, htop2, htail]
  have h4 : step s3 (.run_test id false) = some s4 := by simp [step, test_step, s3, s4]
  have h5 : step s4 (.run_test id false) = some s5 := by
    simp [step, test_step, s4, s5, out, hk']
  have hs5 : Reachable k s5 :=
    ((((hs.step ⟨_, h1⟩).step ⟨_, h2⟩).step ⟨_, h3⟩).step ⟨_, h4⟩).step ⟨_, h5⟩
  exact ⟨s5, hs5, by simp [s5, State.close], rfl, rfl⟩

/-- **Synchronizer rounds.** In every run on a `sync_t` of threshold `k ≥ 1`, with at most `k`
signals between two successful tests and every call stepped one atomic access at a time: no
signal's assertion fires, and no two signals of a round own one slot, so every stored status
stays in its slot; a test wins the exchange only once the round's `k` signals have all returned,
and no two tests win it; every closed round had `k` signals and its successful test copied out
exactly their statuses, each once; and once the round's `k` signals have returned, a test
returns true and closes the round. -/
theorem sync_rounds [Inhabited σ] {k : Nat} (hk : 1 ≤ k) {s : State σ} (hs : Reachable k s) :
    (∀ v, SignalPc.failed v ∉ s.signals) ∧
    (∀ i j idx, i ≠ j → slotAt s.base s.signals i = some idx →
      slotAt s.base s.signals j ≠ some idx) ∧
    (∀ i w, writtenAt s.signals i = some w → s.sync.statuses[w.1]? = some w.2) ∧
    (∀ id p, s.tests id = .copying p → s.signals.length = k ∧ ∀ pc ∈ s.signals, pc.isDone) ∧
    (∀ id id' p p', s.tests id = .copying p → s.tests id' = .copying p' → id = id') ∧
    (∀ r ∈ s.closed, r.1.length = k ∧ ∀ out, r.2 = some out → out.Perm r.1) ∧
    (s.signals.length = k → (∀ pc ∈ s.signals, pc.isDone) → (∀ id p, s.tests id ≠ .copying p) →
      ∀ id, s.tests id = .idle → ∃ s', Reachable k s' ∧
        s'.tests id = .returned true (some (s.sync.statuses.take k)) ∧
        s'.closed = s.closed ++ [(s.signals.map SignalPc.status, some (s.sync.statuses.take k))] ∧
        s'.signals = []) := by
  have hinv := reachable_inv hk hs
  have hk' := reachable_threshold hs
  refine ⟨hinv.signals.not_failed, hinv.signals.slot_distinct, hinv.signals.stored,
    fun id p h => hk' ▸ hinv.copying_done id p h, hinv.copying_unique,
    fun r hr => hk' ▸ hinv.closed r hr, fun hlen hall hno id hidle => ?_⟩
  exact test_completes hk hs hlen hall hno hidle true

/-- Two rounds of two signals. In the first, the signals take their positions in the other
order than they were called, a test finds the round incomplete, and a second test closes it and
copies out the statuses in slot order; in the second, both signals return. -/
def two_round_run : List (Action Nat) :=
  [.signal 10, .signal 20, .run_signal 1, .run_signal 0, .test 0 true, .run_test 0 false,
    .run_signal 0, .run_signal 0, .run_test 0 false, .run_signal 1, .run_signal 1, .run_signal 1,
    .run_signal 0, .test 1 true, .run_test 1 false, .run_test 1 false, .run_test 1 false,
    .run_test 1 false,
    .signal 30, .signal 40, .run_signal 0, .run_signal 0, .run_signal 0, .run_signal 0,
    .run_signal 1, .run_signal 1, .run_signal 1, .run_signal 1]

/-- Where `two_round_run` leaves a `sync_t` of threshold 2. -/
def two_round_state : State Nat := (two_round_run.foldlM step (init 2)).getD (init 2)

theorem sync_rounds_two_rounds :
    let s := two_round_state
    Reachable 2 s ∧ s.closed = [([10, 20], some [20, 10])] ∧ s.tests 0 = .returned false none ∧
      s.signals = [.done 30 0, .done 40 1] ∧ s.tests 2 = .idle ∧ 1 ≤ 2 ∧
    ((∀ v, SignalPc.failed v ∉ s.signals) ∧
    (∀ i j idx, i ≠ j → slotAt s.base s.signals i = some idx →
      slotAt s.base s.signals j ≠ some idx) ∧
    (∀ i w, writtenAt s.signals i = some w → s.sync.statuses[w.1]? = some w.2) ∧
    (∀ id p, s.tests id = .copying p → s.signals.length = 2 ∧ ∀ pc ∈ s.signals, pc.isDone) ∧
    (∀ id id' p p', s.tests id = .copying p → s.tests id' = .copying p' → id = id') ∧
    (∀ r ∈ s.closed, r.1.length = 2 ∧ ∀ out, r.2 = some out → out.Perm r.1) ∧
    (s.signals.length = 2 → (∀ pc ∈ s.signals, pc.isDone) → (∀ id p, s.tests id ≠ .copying p) →
      ∀ id, s.tests id = .idle → ∃ s', Reachable 2 s' ∧
        s'.tests id = .returned true (some (s.sync.statuses.take 2)) ∧
        s'.closed = s.closed ++ [(s.signals.map SignalPc.status, some (s.sync.statuses.take 2))] ∧
        s'.signals = [])) :=
  have h0 : Reachable 2 (init 2 : State Nat) := .init rfl
  have hs : Reachable 2 two_round_state :=
    Machine.Reachable.of_foldlM_isSome h0 two_round_run (by decide +kernel)
  ⟨hs, rfl, rfl, rfl, rfl, by decide, sync_rounds (by decide) hs⟩

end Lci.Sync
