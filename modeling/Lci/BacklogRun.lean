import Lci.Backlog

/-! Threads that push to the backlog queue and progress it, interleaved. A push counts its entry
for its rank with `fetch_add`, then appends it and clears the emptiness hint under the lock; a
progress reads the hint without the lock, then under the lock posts the head entry, forced, and
pops it unless the backend asked for a retry, then counts it off with `fetch_sub` and frees the
buffer its push copied. Each locked region is one step, and the counter updates and the hint read
are steps of their own, so any other thread's step can fall between them. The forced post answers
as `post_by_op` of the sequential model does, for any endpoint; a post that would take the lock
its own thread holds never returns, and its step does not exist.

Ghost fields record every entry appended, removed and posted with its result, and every buffer
freed. `Inv` says the queue is FIFO, each removal is the one non-retry post of the head entry,
posts follow the push order, each copied buffer is freed once and after its removal, the hint is
clear while the queue is not empty, and each rank's counter counts its queued entries and those of
the threads between a counter update and a locked region. -/

namespace Lci.BacklogRun

open Backlog Machine

/-- A queued entry, with the number of the push that made it and whether that push copied the
buffer to the heap. -/
structure Entry where
  entry : backlog_queue_entry_t
  id : Nat
  heap : Bool
  deriving DecidableEq

/-- Whether a `push_*` copies the buffer: `push_sends` when `size` is not zero, `push_puts` and
`push_putImms` always. -/
def copies_buffer : backlog_op_t → Nat → Bool
  | .sends, size => size != 0
  | .puts, _ | .putImms, _ => true
  | _, _ => false

/-- Whether `progress` frees the buffer of a removed entry. -/
def frees_buffer : backlog_op_t → Bool
  | .sends | .puts | .putImms => true
  | _ => false

theorem frees_of_copies {op : backlog_op_t} {size : Nat} (h : copies_buffer op size = true) :
    frees_buffer op = true := by
  cases op <;> simp_all [copies_buffer, frees_buffer]

/-- Where a thread is: between calls, counted and before the locked region of its push, past
the hint check of a progress, or popped and before the counter update. -/
inductive Pc
  | idle
  | pushing (e : Entry)
  | progressing
  | releasing (e : Entry)
  deriving DecidableEq

/-- The queue, the threads `T`, and the ghost record of the run. -/
structure State (T : Type) where
  empty : Bool
  nentries_per_rank : Nat → Nat
  backlog_queue : List Entry
  pc : T → Pc
  next_id : Nat
  appended : List Entry
  removed : List Entry
  posted : List (Entry × errorcode_t)
  freed : List Nat

/-- A step of thread `t`: the start of a push (its copy and counter update), the locked region of
a push, the hint check of a progress, its `try_lock` and locked region with the endpoint's
answers, and its counter update and free. -/
inductive Action (T : Type)
  | push (t : T) (op : backlog_op_t) (rank size : Nat)
  | push_locked (t : T)
  | progress_check (t : T)
  | progress_locked (t : T) (lock_ok : Bool) (ep : Endpoint)
  | progress_release (t : T)

variable {T : Type}

namespace State

def init : State T := ⟨true, fun _ => 0, [], fun _ => .idle, 0, [], [], [], []⟩

/-- The queue as the progressing thread's `post_*` sees it, holding the lock. -/
def view (s : State T) : BacklogQueue :=
  ⟨s.empty, s.nentries_per_rank, true, s.backlog_queue.map Entry.entry⟩

variable [DecidableEq T]

def setPc (s : State T) (t : T) (p : Pc) : State T := { s with pc := Function.update s.pc t p }

end State

open State

section Steps

variable [DecidableEq T]

/-- The start of a `push_*`: copy the buffer, then `fetch_add` the counter of the rank. -/
def push_start (s : State T) (t : T) (op : backlog_op_t) (rank size : Nat) : State T :=
  { s.setPc t (.pushing ⟨⟨op, rank⟩, s.next_id, copies_buffer op size⟩) with
    nentries_per_rank := Function.update s.nentries_per_rank rank (s.nentries_per_rank rank + 1)
    next_id := s.next_id + 1 }

/-- The locked region of a `push_*`: append the entry and clear the hint. -/
def push_locked (s : State T) (t : T) (e : Entry) : State T :=
  { s.setPc t .idle with
    backlog_queue := s.backlog_queue ++ [e]
    empty := false
    appended := s.appended ++ [e] }

/-- The end of a locked region of `progress` whose post of the head entry `e` was not refused:
pop it, set the hint if the queue is now empty, and keep `e` for the counter update. -/
def pop_entry (s : State T) (t : T) (e : Entry) (rest : List Entry) (error : errorcode_t) :
    State T :=
  { s.setPc t (.releasing e) with
    backlog_queue := rest
    empty := rest.isEmpty || s.empty
    removed := s.removed ++ [e]
    posted := s.posted ++ [(e, error)] }

/-- The end of a locked region of `progress` whose post of `e` was refused with a retry. -/
def keep_entry (s : State T) (t : T) (e : Entry) (error : errorcode_t) : State T :=
  { s.setPc t .idle with posted := s.posted ++ [(e, error)] }

/-- `try_lock` and the locked region of `progress`: post the head entry, forced, and pop it
unless the backend asked for a retry. -/
def progress_locked (s : State T) (t : T) (lock_ok : Bool) (ep : Endpoint) : Option (State T) :=
  if !lock_ok then some (s.setPc t .idle)
  else
    match s.backlog_queue with
    | [] => some { s.setPc t .idle with empty := true }
    | e :: rest =>
      match post_by_op ep e.entry.op e.entry.rank true true s.view with
      | .error _ => none
      | .ok (error, _) =>
        if !error.is_retry then some (pop_entry s t e rest error)
        else some (keep_entry s t e error)

/-- The end of `progress`: `fetch_sub` the counter of the rank, then free a copied buffer. -/
def progress_release (s : State T) (t : T) (e : Entry) : State T :=
  { s.setPc t .idle with
    nentries_per_rank :=
      Function.update s.nentries_per_rank e.entry.rank (s.nentries_per_rank e.entry.rank - 1)
    freed := if frees_buffer e.entry.op && e.heap then s.freed ++ [e.id] else s.freed }

/-- A step of one thread, where its program counter allows it. -/
def step (s : State T) : Action T → Option (State T)
  | .push t op rank size =>
    match s.pc t with
    | .idle => some (push_start s t op rank size)
    | _ => none
  | .push_locked t =>
    match s.pc t with
    | .pushing e => some (push_locked s t e)
    | _ => none
  | .progress_check t =>
    match s.pc t with
    | .idle => some (if s.empty then s else s.setPc t .progressing)
    | _ => none
  | .progress_locked t lock_ok ep =>
    match s.pc t with
    | .progressing => progress_locked s t lock_ok ep
    | _ => none
  | .progress_release t =>
    match s.pc t with
    | .releasing e => some (progress_release s t e)
    | _ => none

/-- The states of a new queue under any interleaving of the threads' steps. -/
def Reachable : State T → Prop :=
  Machine.Reachable (· = State.init) (fun s s' => ∃ a, step s a = some s')

end Steps

/-- The entry a thread holds between a counter update and a locked region of a push. -/
def pushingOf : Pc → Multiset Entry
  | .pushing e => {e}
  | _ => 0

/-- The entry a thread holds between a locked region and a counter update of a progress. -/
def releasingOf : Pc → Multiset Entry
  | .releasing e => {e}
  | _ => 0

@[simp] theorem pushingOf_idle : pushingOf .idle = 0 := rfl
@[simp] theorem pushingOf_pushing (e : Entry) : pushingOf (.pushing e) = {e} := rfl
@[simp] theorem pushingOf_progressing : pushingOf .progressing = 0 := rfl
@[simp] theorem pushingOf_releasing (e : Entry) : pushingOf (.releasing e) = 0 := rfl
@[simp] theorem releasingOf_idle : releasingOf .idle = 0 := rfl
@[simp] theorem releasingOf_pushing (e : Entry) : releasingOf (.pushing e) = 0 := rfl
@[simp] theorem releasingOf_progressing : releasingOf .progressing = 0 := rfl
@[simp] theorem releasingOf_releasing (e : Entry) : releasingOf (.releasing e) = {e} := rfl

variable [Fintype T]

/-- The entries of the threads between a counter update and the locked region of a push. -/
def State.pushing (s : State T) : Multiset Entry := ∑ t, pushingOf (s.pc t)

/-- The entries of the threads between the locked region and the counter update of a progress. -/
def State.releasing (s : State T) : Multiset Entry := ∑ t, releasingOf (s.pc t)

theorem countP_singleton (p : Entry → Prop) [DecidablePred p] (e : Entry) :
    Multiset.countP p {e} = if p e then 1 else 0 := by
  rw [← Multiset.cons_zero, Multiset.countP_cons, Multiset.countP_zero, zero_add]

section Shares

variable [DecidableEq T] {s : State T} {t : T} {p : Pc}

theorem pushing_setPc : (s.setPc t p).pushing + pushingOf (s.pc t) = s.pushing + pushingOf p :=
  sum_update_add (Finset.mem_univ t) pushingOf s.pc p

theorem releasing_setPc :
    (s.setPc t p).releasing + releasingOf (s.pc t) = s.releasing + releasingOf p :=
  sum_update_add (Finset.mem_univ t) releasingOf s.pc p

end Shares

/-- The entries made so far: appended, or counted and waiting for their push's lock. -/
def State.live (s : State T) : Multiset Entry := s.appended + s.pushing

/-- The entries made so far have distinct numbers below the next one, and only those of the
pushes that free their buffer hold a heap copy. -/
structure Made (live : Multiset Entry) (next_id : Nat) : Prop where
  fresh : ∀ e ∈ live, e.id < next_id
  nodup : (live.map Entry.id).Nodup
  heap_frees : ∀ e ∈ live, e.heap = true → frees_buffer e.entry.op = true

/-- What holds between any two steps of any threads. -/
structure Inv (s : State T) : Prop where
  fifo : s.removed ++ s.backlog_queue = s.appended
  hint : s.backlog_queue ≠ [] → s.empty = false
  counts : ∀ r, s.nentries_per_rank r = s.backlog_queue.countP (fun e => e.entry.rank == r) +
    (s.pushing + s.releasing).countP (fun e => e.entry.rank = r)
  made : Made s.live s.next_id
  releasing_le : s.releasing ≤ s.removed
  freed : ∀ i, i ∈ s.freed ↔ ∃ e ∈ s.removed, e.id = i ∧ e.heap = true ∧ e ∉ s.releasing
  freed_nodup : s.freed.Nodup
  posted_removed : (s.posted.filter fun p => !p.2.is_retry).map Prod.fst = s.removed
  posted_le : ∀ p ∈ s.posted, p.1 ∈ s.appended ∧ s.appended.idxOf p.1 ≤ s.removed.length
  posted_order : (s.posted.map fun p => s.appended.idxOf p.1).Pairwise (· ≤ ·)

section Inv

variable {s : State T}

theorem Inv.id_inj (h : Inv s) {e e' : Entry} (he : e ∈ s.live) (he' : e' ∈ s.live)
    (hid : e.id = e'.id) : e = e' :=
  Multiset.inj_on_of_nodup_map h.made.nodup e he e' he' hid

theorem Inv.appended_nodup (h : Inv s) : s.appended.Nodup := by
  have hlive : s.live.Nodup := Multiset.Nodup.of_map _ h.made.nodup
  exact Multiset.coe_nodup.mp (Multiset.nodup_of_le (Multiset.le_add_right _ _) hlive)

theorem mem_live_of_appended {e : Entry} (he : e ∈ s.appended) : e ∈ s.live :=
  Multiset.mem_add.mpr (.inl (Multiset.mem_coe.mpr he))

theorem Inv.mem_appended_of_removed (h : Inv s) {e : Entry} (he : e ∈ s.removed) :
    e ∈ s.appended := by
  rw [← h.fifo]
  exact List.mem_append_left _ he

/-- The head of the queue is the first entry appended and not removed. -/
theorem Inv.idxOf_head (h : Inv s) {e : Entry} {rest : List Entry}
    (hq : s.backlog_queue = e :: rest) : e ∈ s.appended ∧ s.appended.idxOf e = s.removed.length := by
  have hnodup := h.appended_nodup
  rw [← h.fifo, hq] at hnodup ⊢
  have hnot : e ∉ s.removed := fun hmem =>
    (List.nodup_append.mp hnodup).2.2 e hmem e List.mem_cons_self rfl
  exact ⟨List.mem_append_right _ List.mem_cons_self,
    by rw [List.idxOf_append_of_notMem hnot, List.idxOf_cons_self, Nat.add_zero]⟩

theorem Inv.head_not_removed (h : Inv s) {e : Entry} {rest : List Entry}
    (hq : s.backlog_queue = e :: rest) : e ∉ s.removed := by
  have hnodup := h.appended_nodup
  rw [← h.fifo, hq] at hnodup
  exact fun hmem => (List.nodup_append.mp hnodup).2.2 e hmem e List.mem_cons_self rfl

/-- A post of the head entry keeps the posts in push order. -/
theorem Inv.posted_snoc (h : Inv s) {e : Entry} {rest : List Entry}
    (hq : s.backlog_queue = e :: rest) (error : errorcode_t) :
    (∀ p ∈ s.posted ++ [(e, error)],
      p.1 ∈ s.appended ∧ s.appended.idxOf p.1 ≤ s.removed.length) ∧
    ((s.posted ++ [(e, error)]).map fun p => s.appended.idxOf p.1).Pairwise (· ≤ ·) := by
  obtain ⟨hmem, hidx⟩ := h.idxOf_head hq
  refine ⟨fun p hp => ?_, ?_⟩
  · rcases List.mem_append.mp hp with hp | hp
    · exact h.posted_le p hp
    · rw [List.mem_singleton.mp hp]
      exact ⟨hmem, hidx.le⟩
  · rw [List.map_append, List.map_singleton, List.pairwise_append]
    refine ⟨h.posted_order, List.pairwise_singleton _ _, fun a ha b hb => ?_⟩
    obtain ⟨p, hp, rfl⟩ := List.mem_map.mp ha
    rw [List.mem_singleton.mp hb, hidx]
    exact (h.posted_le p hp).2

theorem Inv.releasing_nodup (h : Inv s) : s.releasing.Nodup :=
  Multiset.nodup_of_le h.releasing_le (Multiset.coe_nodup.mpr
    (List.nodup_append.mp (h.fifo ▸ h.appended_nodup)).1)

theorem init_inv : Inv (State.init : State T) where
  fifo := rfl
  hint h := absurd rfl h
  counts r := by simp [State.init, State.pushing, State.releasing, pushingOf, releasingOf]
  made :=
    { fresh := fun e he => by simp [State.init, State.live, State.pushing, pushingOf] at he
      nodup := by simp [State.init, State.live, State.pushing, pushingOf]
      heap_frees := fun e he => by simp [State.init, State.live, State.pushing, pushingOf] at he }
  releasing_le := by simp [State.init, State.releasing, releasingOf]
  freed i := by simp [State.init]
  freed_nodup := List.nodup_nil
  posted_removed := rfl
  posted_le p hp := by simp [State.init] at hp
  posted_order := List.Pairwise.nil

end Inv

/-! ### One step of one thread -/

section Actions

variable [DecidableEq T] {s : State T} {t : T}

theorem pushing_setPc_quiet {p : Pc} (hp : pushingOf p = pushingOf (s.pc t)) :
    (s.setPc t p).pushing = s.pushing := by
  have := pushing_setPc (s := s) (t := t) (p := p)
  rw [hp] at this
  exact add_right_cancel this

theorem releasing_setPc_quiet {p : Pc} (hp : releasingOf p = releasingOf (s.pc t)) :
    (s.setPc t p).releasing = s.releasing := by
  have := releasing_setPc (s := s) (t := t) (p := p)
  rw [hp] at this
  exact add_right_cancel this

/-- A thread that moves between points where it holds no entry changes nothing `Inv` reads. -/
theorem Inv.setPc_quiet (h : Inv s) {p : Pc} (hp : pushingOf p = pushingOf (s.pc t))
    (hr : releasingOf p = releasingOf (s.pc t)) : Inv (s.setPc t p) := by
  have hpush := pushing_setPc_quiet hp
  have hrel := releasing_setPc_quiet hr
  have hlive : (s.setPc t p).live = s.live := by rw [State.live, State.live, hpush]; rfl
  exact
    { fifo := h.fifo
      hint := h.hint
      counts := fun r => by rw [hpush, hrel]; exact h.counts r
      made := by rw [hlive]; exact h.made
      releasing_le := by rw [hrel]; exact h.releasing_le
      freed := by rw [hrel]; exact h.freed
      freed_nodup := h.freed_nodup
      posted_removed := h.posted_removed
      posted_le := h.posted_le
      posted_order := h.posted_order }

theorem Inv.of_push_start (h : Inv s) (hpc : s.pc t = .idle) (op : backlog_op_t) (rank size : Nat) :
    Inv (push_start s t op rank size) := by
  set e : Entry := ⟨⟨op, rank⟩, s.next_id, copies_buffer op size⟩ with he
  have hpush : (push_start s t op rank size).pushing = s.pushing + {e} := by
    have := pushing_setPc (s := s) (t := t) (p := .pushing e)
    rwa [hpc, pushingOf_idle, pushingOf_pushing, add_zero] at this
  have hrel : (push_start s t op rank size).releasing = s.releasing :=
    releasing_setPc_quiet (by rw [hpc]; rfl)
  have hlive : (push_start s t op rank size).live = s.live + {e} := by
    rw [State.live, State.live, hpush, add_assoc]
    rfl
  refine
    { fifo := h.fifo
      hint := h.hint
      counts := fun r => ?_
      made := ⟨?_, ?_, ?_⟩
      releasing_le := by rw [hrel]; exact h.releasing_le
      freed := by rw [hrel]; exact h.freed
      freed_nodup := h.freed_nodup
      posted_removed := h.posted_removed
      posted_le := h.posted_le
      posted_order := h.posted_order }
  · rw [hpush, hrel, add_right_comm, Multiset.countP_add, Multiset.countP_add]
    dsimp only [BacklogRun.push_start, State.setPc]
    by_cases hr : r = rank
    · subst hr
      rw [Function.update_self, h.counts, Multiset.countP_add, he, countP_singleton, if_pos rfl]
      omega
    · rw [Function.update_of_ne hr, h.counts, Multiset.countP_add, he, countP_singleton,
        if_neg (Ne.symm hr)]
      omega
  · rw [hlive]
    intro x hx
    rcases Multiset.mem_add.mp hx with hx | hx
    · exact Nat.lt_succ_of_lt (h.made.fresh x hx)
    · rw [Multiset.mem_singleton.mp hx]
      exact Nat.lt_succ_self _
  · rw [hlive, Multiset.map_add, Multiset.map_singleton, add_comm, Multiset.singleton_add]
    refine Multiset.nodup_cons.mpr ⟨fun hmem => ?_, h.made.nodup⟩
    obtain ⟨x, hx, hxid⟩ := Multiset.mem_map.mp hmem
    exact absurd (h.made.fresh x hx) (by rw [hxid]; exact Nat.lt_irrefl _)
  · rw [hlive]
    intro x hx hheap
    rcases Multiset.mem_add.mp hx with hx | hx
    · exact h.made.heap_frees x hx hheap
    · rw [Multiset.mem_singleton.mp hx] at hheap ⊢
      exact frees_of_copies hheap

theorem Inv.of_push_locked (h : Inv s) {e : Entry} (hpc : s.pc t = .pushing e) :
    Inv (push_locked s t e) := by
  have hpush : (push_locked s t e).pushing + {e} = s.pushing := by
    have := pushing_setPc (s := s) (t := t) (p := .idle)
    rwa [hpc, pushingOf_pushing, pushingOf_idle, add_zero] at this
  have hrel : (push_locked s t e).releasing = s.releasing :=
    releasing_setPc_quiet (by rw [hpc]; rfl)
  have hlive : (push_locked s t e).live = s.live := by
    rw [State.live, State.live, ← hpush]
    show ((s.appended ++ [e] : List Entry) : Multiset Entry) + _ = _
    rw [← Multiset.coe_add, Multiset.coe_singleton, add_assoc, add_comm ({e} : Multiset Entry)]
  have hidx : ∀ p ∈ s.posted, (s.appended ++ [e]).idxOf p.1 = s.appended.idxOf p.1 :=
    fun p hp => List.idxOf_append_of_mem (h.posted_le p hp).1
  refine
    { fifo := by
        show s.removed ++ (s.backlog_queue ++ [e]) = s.appended ++ [e]
        rw [← List.append_assoc, h.fifo]
      hint := fun _ => rfl
      counts := fun r => ?_
      made := by rw [hlive]; exact h.made
      releasing_le := by rw [hrel]; exact h.releasing_le
      freed := by rw [hrel]; exact h.freed
      freed_nodup := h.freed_nodup
      posted_removed := h.posted_removed
      posted_le := fun p hp => ⟨List.mem_append_left _ (h.posted_le p hp).1,
        (hidx p hp).symm ▸ (h.posted_le p hp).2⟩
      posted_order := by
        show (s.posted.map fun p => (s.appended ++ [e]).idxOf p.1).Pairwise (· ≤ ·)
        rw [List.map_congr_left hidx]
        exact h.posted_order }
  have hc := h.counts r
  rw [← hpush, Multiset.countP_add, Multiset.countP_add, countP_singleton] at hc
  show s.nentries_per_rank r = (s.backlog_queue ++ [e]).countP _ + _
  rw [hc, hrel, Multiset.countP_add, List.countP_append, List.countP_singleton]
  by_cases hr : e.entry.rank = r
  · simp [hr]
    omega
  · simp [hr]

/-- The locked region of a progress on an empty queue sets the hint. -/
theorem Inv.of_progress_empty (h : Inv s) (hpc : s.pc t = .progressing)
    (hq : s.backlog_queue = []) : Inv { s.setPc t .idle with empty := true } :=
  { h.setPc_quiet (by rw [hpc]; rfl) (by rw [hpc]; rfl) with
    hint := fun hne => absurd hq hne }

/-- The locked region of a progress that pops the head entry. -/
theorem Inv.of_progress_pop (h : Inv s) (hpc : s.pc t = .progressing) {e : Entry}
    {rest : List Entry} (hq : s.backlog_queue = e :: rest) {error : errorcode_t}
    (herr : error.is_retry = false) :
    Inv (pop_entry s t e rest error) := by
  have hpush : (pop_entry s t e rest error).pushing = s.pushing :=
    pushing_setPc_quiet (by rw [hpc]; rfl)
  have hrel : (pop_entry s t e rest error).releasing = s.releasing + {e} := by
    have := releasing_setPc (s := s) (t := t) (p := .releasing e)
    rwa [hpc, releasingOf_progressing, releasingOf_releasing, add_zero] at this
  have hlive : (pop_entry s t e rest error).live = s.live := by
    rw [State.live, State.live, hpush]
    rfl
  have hnot := h.head_not_removed hq
  have hsnoc := h.posted_snoc hq error
  refine
    { fifo := by
        show (s.removed ++ [e]) ++ rest = s.appended
        rw [List.append_assoc, List.singleton_append, ← hq, h.fifo]
      hint := fun hne => ?_
      counts := fun r => ?_
      made := by rw [hlive]; exact h.made
      releasing_le := by
        show (pop_entry s t e rest error).releasing ≤ ((s.removed ++ [e] : List Entry) : Multiset Entry)
        rw [hrel, ← Multiset.coe_add, Multiset.coe_singleton]
        exact add_le_add_left h.releasing_le _
      freed := fun i => ?_
      freed_nodup := h.freed_nodup
      posted_removed := by
        show ((s.posted ++ [(e, error)]).filter _).map _ = s.removed ++ [e]
        rw [List.filter_append, List.map_append, h.posted_removed]
        simp [herr]
      posted_le := fun p hp => ⟨(hsnoc.1 p hp).1, by
        show _ ≤ (s.removed ++ [e]).length
        rw [List.length_append, List.length_singleton]
        exact Nat.le_succ_of_le (hsnoc.1 p hp).2⟩
      posted_order := hsnoc.2 }
  · have hempty : s.empty = false := h.hint (by rw [hq]; exact List.cons_ne_nil _ _)
    show (rest.isEmpty || s.empty) = false
    rw [hempty, Bool.or_false, List.isEmpty_eq_false_iff]
    exact hne
  · have hc := h.counts r
    rw [hq, List.countP_cons] at hc
    show s.nentries_per_rank r = rest.countP _ + ((pop_entry s t e rest error).pushing +
      (pop_entry s t e rest error).releasing).countP _
    rw [hpush, hrel, hc, ← add_assoc, Multiset.countP_add, Multiset.countP_add,
      Multiset.countP_add, countP_singleton]
    by_cases hr : e.entry.rank = r
    · simp [hr]
      omega
    · simp [hr]
  · show i ∈ s.freed ↔ ∃ e' ∈ s.removed ++ [e], e'.id = i ∧ e'.heap = true ∧
      e' ∉ (pop_entry s t e rest error).releasing
    rw [hrel, h.freed i]
    constructor
    · rintro ⟨e', he', hid, hheap, hr'⟩
      refine ⟨e', List.mem_append_left _ he', hid, hheap, fun hmem => ?_⟩
      rcases Multiset.mem_add.mp hmem with hmem | hmem
      · exact hr' hmem
      · exact hnot (Multiset.mem_singleton.mp hmem ▸ he')
    · rintro ⟨e', he', hid, hheap, hr'⟩
      rcases List.mem_append.mp he' with he' | he'
      · exact ⟨e', he', hid, hheap, fun hmem => hr' (Multiset.mem_add.mpr (.inl hmem))⟩
      · rw [List.mem_singleton.mp he'] at hr'
        exact absurd (Multiset.mem_add.mpr (.inr (Multiset.mem_singleton_self e))) hr'

/-- The locked region of a progress whose post the backend refused with a retry. -/
theorem Inv.of_progress_retry (h : Inv s) (hpc : s.pc t = .progressing) {e : Entry}
    {rest : List Entry} (hq : s.backlog_queue = e :: rest) {error : errorcode_t}
    (herr : error.is_retry = true) :
    Inv (keep_entry s t e error) :=
  { h.setPc_quiet (by rw [hpc]; rfl) (by rw [hpc]; rfl) with
    posted_removed := by
      show ((s.posted ++ [(e, error)]).filter _).map _ = s.removed
      rw [List.filter_append, List.map_append, h.posted_removed]
      simp [herr]
    posted_le := (h.posted_snoc hq error).1
    posted_order := (h.posted_snoc hq error).2 }

/-- The counter update and free of a progress that popped `e`. -/
theorem Inv.of_progress_release (h : Inv s) {e : Entry} (hpc : s.pc t = .releasing e) :
    Inv (progress_release s t e) := by
  have hpush : (progress_release s t e).pushing = s.pushing :=
    pushing_setPc_quiet (by rw [hpc]; rfl)
  have hrel : (progress_release s t e).releasing + {e} = s.releasing := by
    have := releasing_setPc (s := s) (t := t) (p := .idle)
    rwa [hpc, releasingOf_releasing, releasingOf_idle, add_zero] at this
  have hlive : (progress_release s t e).live = s.live := by
    rw [State.live, State.live, hpush]
    rfl
  have hmem : e ∈ s.releasing := by
    rw [← hrel]
    exact Multiset.mem_add.mpr (.inr (Multiset.mem_singleton_self e))
  have hremoved : e ∈ s.removed := Multiset.mem_coe.mp (Multiset.mem_of_le h.releasing_le hmem)
  have hlive_e : e ∈ s.live := mem_live_of_appended (h.mem_appended_of_removed hremoved)
  have hnot : e ∉ (progress_release s t e).releasing := by
    have hnd := h.releasing_nodup
    rw [← hrel, add_comm, Multiset.singleton_add] at hnd
    exact (Multiset.nodup_cons.mp hnd).1
  have hother : ∀ i, (∃ e' ∈ s.removed, e'.id = i ∧ e'.heap = true ∧
      e' ∉ (progress_release s t e).releasing) ↔ i ∈ s.freed ∨ (e.heap = true ∧ i = e.id) := by
    intro i
    rw [h.freed i]
    constructor
    · rintro ⟨e', he', hid, hheap, hr'⟩
      by_cases hee : e' = e
      · subst hee
        exact .inr ⟨hheap, hid.symm⟩
      · refine .inl ⟨e', he', hid, hheap, fun hm => hr' ?_⟩
        rw [← hrel, Multiset.mem_add, Multiset.mem_singleton] at hm
        exact hm.resolve_right hee
    · rintro (⟨e', he', hid, hheap, hr'⟩ | ⟨hheap, rfl⟩)
      · exact ⟨e', he', hid, hheap, fun hm => hr' (hrel ▸ Multiset.mem_add.mpr (.inl hm))⟩
      · exact ⟨e, hremoved, rfl, hheap, hnot⟩
  refine
    { fifo := h.fifo
      hint := h.hint
      counts := fun r => ?_
      made := by rw [hlive]; exact h.made
      releasing_le := le_trans (hrel ▸ Multiset.le_add_right _ _) h.releasing_le
      freed := fun i => ?_
      freed_nodup := ?_
      posted_removed := h.posted_removed
      posted_le := h.posted_le
      posted_order := h.posted_order }
  · have hc := h.counts r
    rw [← hrel, ← add_assoc, Multiset.countP_add, countP_singleton] at hc
    show Function.update s.nentries_per_rank e.entry.rank
      (s.nentries_per_rank e.entry.rank - 1) r = s.backlog_queue.countP _ +
        ((progress_release s t e).pushing + (progress_release s t e).releasing).countP _
    rw [hpush]
    by_cases hr : e.entry.rank = r
    · subst hr
      rw [Function.update_self, hc, if_pos rfl]
      omega
    · rw [Function.update_of_ne (Ne.symm hr), hc, if_neg hr, add_zero]
  · show i ∈ (if frees_buffer e.entry.op && e.heap then s.freed ++ [e.id] else s.freed) ↔
      ∃ e' ∈ s.removed, e'.id = i ∧ e'.heap = true ∧ e' ∉ (progress_release s t e).releasing
    rw [hother i]
    split
    · rename_i hfree
      simp only [Bool.and_eq_true] at hfree
      rw [List.mem_append, List.mem_singleton, hfree.2]
      simp
    · rename_i hfree
      have hheap : e.heap = false := by
        cases hh : e.heap
        · rfl
        · rw [hh, h.made.heap_frees e hlive_e hh] at hfree
          exact absurd rfl hfree
      simp [hheap]
  · show (if frees_buffer e.entry.op && e.heap then s.freed ++ [e.id] else s.freed).Nodup
    split
    · refine List.Nodup.append h.freed_nodup (List.nodup_singleton _) ?_
      intro i hi hi'
      rw [List.mem_singleton.mp hi'] at hi
      obtain ⟨e', he', hid, -, hr'⟩ := (h.freed e.id).mp hi
      have hee : e' = e := h.id_inj (mem_live_of_appended (h.mem_appended_of_removed he'))
        hlive_e hid
      exact hr' (hee ▸ hmem)
    · exact h.freed_nodup

theorem Inv.of_progress_locked (h : Inv s) (hpc : s.pc t = .progressing) {lock_ok : Bool}
    {ep : Endpoint} {s' : State T} (hs : progress_locked s t lock_ok ep = some s') : Inv s' := by
  unfold progress_locked at hs
  split at hs
  · cases hs
    exact h.setPc_quiet (by rw [hpc]; rfl) (by rw [hpc]; rfl)
  · split at hs
    · rename_i hq
      cases hs
      exact h.of_progress_empty hpc hq
    · rename_i e rest hq
      split at hs
      · cases hs
      · split at hs
        · rename_i herr
          cases hs
          exact h.of_progress_pop hpc hq (by simpa using herr)
        · rename_i herr
          cases hs
          exact h.of_progress_retry hpc hq (by simpa using herr)

/-- Every step of every thread keeps the invariant. -/
theorem Inv.of_step (h : Inv s) {a : Action T} {s' : State T} (hs : step s a = some s') :
    Inv s' := by
  cases a with
  | push t op rank size =>
    simp only [step] at hs
    split at hs
    · rename_i hpc
      cases hs
      exact h.of_push_start hpc op rank size
    · cases hs
  | push_locked t =>
    simp only [step] at hs
    split at hs
    · rename_i e hpc
      cases hs
      exact h.of_push_locked hpc
    · cases hs
  | progress_check t =>
    simp only [step] at hs
    split at hs
    · rename_i hpc
      cases hs
      split
      · exact h
      · exact h.setPc_quiet (by rw [hpc]; rfl) (by rw [hpc]; rfl)
    · cases hs
  | progress_locked t lock_ok ep =>
    simp only [step] at hs
    split at hs
    · rename_i hpc
      exact h.of_progress_locked hpc hs
    · cases hs
  | progress_release t =>
    simp only [step] at hs
    split at hs
    · rename_i e hpc
      cases hs
      exact h.of_progress_release hpc
    · cases hs

theorem Reachable.inv {s : State T} (hs : Reachable s) : Inv s := by
  refine Machine.Reachable.induction_inv ?_ ?_ hs
  · rintro _ rfl
    exact init_inv
  · rintro s s' h ⟨a, ha⟩
    exact h.of_step ha

end Actions

end Lci.BacklogRun
