import Lci.RingWindow
import Lci.Machine

/-! The packet pool's `mpmc_set_t`: one `local_set_t` per thread, a deque kept as a ring of
cells with signed `head` and `tail` indices. `put` pushes on the calling thread's own deque, at
the bottom for its own packets and at the top for a packet of another thread; `get_n` pops from
the bottom, stealing the top half of a random other deque first when its own is empty. Each
operation runs under its deque's spinlock, a steal under both, so a run is a sequence of whole
operations by any threads, with the random draws and `try_lock` outcomes as inputs.

A deque's packets are its window of `tail - head` cells from `head` (`local_set_t.view`). The
invariant `local_set_t.WF` (some cell, `0 ≤ tail - head < queue.size()`, every window
cell a packet) makes each operation act on the window as a deque, so no pointer is lost or
duplicated and no `nullptr` is popped. -/

namespace Lci.MpmcSet

open Lci.Ring

variable {α : Type}

/-- A thread's deque; a `nullptr` cell is `none`. -/
structure local_set_t (α : Type) where
  queue : List (Option α)
  head : Int
  tail : Int

namespace local_set_t

/-- `local_set_t(default_size)`: `default_size + 1` empty cells. -/
def alloc (default_size : Nat) : local_set_t α := ⟨List.replicate (default_size + 1) none, 0, 0⟩

/-- `size()`, as the `size_t` it returns. -/
def size (ls : local_set_t α) : Nat := (ls.tail - ls.head).toNat

/-- `get_position`: `(idx % size + size) % size` with the truncating `%` of C++. -/
def get_position (ls : local_set_t α) (idx : Int) : Int :=
  (idx.tmod ls.queue.length + ls.queue.length).tmod ls.queue.length

/-- `copy_to_new`: `memcpy` the `n` packets from `head` to the front of `new_queue`, in two
pieces when they wrap, and move `head` past them. -/
def copy_to_new (src : local_set_t α) (new_queue : List (Option α)) (n : Nat) :
    local_set_t α × List (Option α) :=
  let head_idx := (src.get_position src.head).toNat
  if head_idx + n ≤ src.queue.length then
    ({ src with head := src.head + n }, writeAt new_queue 0 ((src.queue.drop head_idx).take n))
  else
    let first_segment_size := src.queue.length - head_idx
    ({ src with head := src.head + n },
      writeAt (writeAt new_queue 0 ((src.queue.drop head_idx).take first_segment_size))
        first_segment_size (src.queue.take (n - first_segment_size)))

/-- `expand`: copy the packets to the front of a ring twice as large. -/
def expand (ls : local_set_t α) : local_set_t α :=
  { queue := (copy_to_new ls (List.replicate (ls.queue.length * 2) none) ls.size).2
    head := 0
    tail := ls.size }

/-- `expand` first when the ring is full. -/
def grow (ls : local_set_t α) : local_set_t α :=
  if ls.size = ls.queue.length - 1 then ls.expand else ls

/-- `push_to_bot`: write at `tail`, then advance it. -/
def push_to_bot (ls : local_set_t α) (packet : α) : local_set_t α :=
  let ls := ls.grow
  { ls with
    queue := ls.queue.set (ls.get_position ls.tail).toNat (some packet)
    tail := ls.tail + 1 }

/-- `push_to_top`: move `head` back, then write there. -/
def push_to_top (ls : local_set_t α) (packet : α) : local_set_t α :=
  let ls := ls.grow
  { ls with
    queue := ls.queue.set (ls.get_position (ls.head - 1)).toNat (some packet)
    head := ls.head - 1 }

/-- `pop_from_bot`: nothing from an empty deque, else move `tail` back and read there. -/
def pop_from_bot (ls : local_set_t α) : Option α × local_set_t α :=
  if ls.head = ls.tail then (none, ls)
  else (cellAt ls.queue (ls.get_position (ls.tail - 1)).toNat, { ls with tail := ls.tail - 1 })

/-- `pop_from_top`: nothing from an empty deque, else read at `head` and advance it. -/
def pop_from_top (ls : local_set_t α) : Option α × local_set_t α :=
  if ls.head = ls.tail then (none, ls)
  else (cellAt ls.queue (ls.get_position ls.head).toNat, { ls with head := ls.head + 1 })

/-- The loop of `get_n`: pop from the bottom up to `n` times, stopping at a `nullptr`. -/
def pop_n (ls : local_set_t α) : Nat → List α × local_set_t α
  | 0 => ([], ls)
  | n + 1 =>
    match ls.pop_from_bot with
    | (some p, ls') => (p :: (pop_n ls' n).1, (pop_n ls' n).2)
    | (none, ls') => ([], ls')

/-- The cells of the deque, from its top. -/
def view (ls : local_set_t α) : List (Option α) := window ls.queue ls.head ls.size

/-- The packets of the deque, from its top. -/
def packets (ls : local_set_t α) : List α := ls.view.filterMap id

/-- A deque whose window is a deque of packets. -/
structure WF (ls : local_set_t α) : Prop where
  length_pos : 0 < ls.queue.length
  head_le : ls.head ≤ ls.tail
  size_lt : ls.size < ls.queue.length
  filled : ∀ c ∈ ls.view, c.isSome

theorem eq_map_some_filterMap {l : List (Option α)} (h : ∀ c ∈ l, c.isSome) :
    l = (l.filterMap id).map some := by
  induction l with
  | nil => rfl
  | cons c l ih =>
    obtain ⟨p, rfl⟩ := Option.isSome_iff_exists.mp (h c (List.mem_cons_self ..))
    rw [List.filterMap_cons_some (rfl : id (some p) = some p), List.map_cons,
      ← ih fun c hc => h c (List.mem_cons_of_mem _ hc)]

section Ops

variable {ls : local_set_t α} {n : Nat}

theorem get_position_eq (hm : 0 < ls.queue.length) (i : Int) :
    ls.get_position i = cellIndex ls.queue.length i := by
  unfold get_position
  have hnonneg : 0 ≤ i.tmod ls.queue.length + ls.queue.length := by
    have := Int.emod_nonneg i (by omega : (ls.queue.length : Int) ≠ 0)
    rw [Int.tmod_eq_emod]
    split <;> simp <;> omega
  rw [cellIndex_cast hm, Int.tmod_eq_emod_of_nonneg hnonneg, Int.tmod_def,
    show i - (ls.queue.length : Int) * i.tdiv ls.queue.length + ls.queue.length =
      i + ls.queue.length * (1 - i.tdiv ls.queue.length) by ring,
    Int.add_mul_emod_self_left]

theorem get_position_toNat (hm : 0 < ls.queue.length) (i : Int) :
    (ls.get_position i).toNat = cellIndex ls.queue.length i := by
  rw [get_position_eq hm]
  rfl

theorem WF.view_eq (hwf : ls.WF) : ls.view = ls.packets.map some :=
  eq_map_some_filterMap hwf.filled

theorem WF.size_eq (hwf : ls.WF) : (ls.size : Int) = ls.tail - ls.head := by
  have := hwf.head_le
  unfold size
  omega

@[simp] theorem view_length : ls.view.length = ls.size := by
  simp [view]

theorem WF.packets_length (hwf : ls.WF) : ls.packets.length = ls.size := by
  have := congrArg List.length hwf.view_eq
  simp only [view_length, List.length_map] at this
  exact this.symm

theorem copy_to_new_fst (dst : List (Option α)) :
    (copy_to_new ls dst n).1 = { ls with head := ls.head + n } := by
  dsimp only [copy_to_new]
  split <;> rfl

/-- `copy_to_new` puts the first `n` cells of the window at the front of `dst`. -/
theorem copy_to_new_take (hwf : ls.WF) (hn : n ≤ ls.size) (dst : List (Option α)) :
    (copy_to_new ls dst n).2.take n = window ls.queue ls.head n := by
  have hm := hwf.length_pos
  have hs := hwf.size_lt
  have hlt := cellIndex_lt hm ls.head
  unfold copy_to_new
  simp only [get_position_toNat hm]
  split
  · rename_i hfit
    rw [window_eq_slice hfit]
    have hlen : ((ls.queue.drop (cellIndex ls.queue.length ls.head)).take n).length = n := by
      simp; omega
    have htake : (writeAt dst 0 ((ls.queue.drop (cellIndex ls.queue.length ls.head)).take n)).take
        ((ls.queue.drop (cellIndex ls.queue.length ls.head)).take n).length =
        (ls.queue.drop (cellIndex ls.queue.length ls.head)).take n :=
      take_writeAt_zero
    rwa [hlen] at htake
  · rename_i hwrap
    rw [window_eq_wrap hm (by omega) (by omega)]
    set c := cellIndex ls.queue.length ls.head
    set xs := (ls.queue.drop c).take (ls.queue.length - c) with hxs
    set ys := ls.queue.take (n - (ls.queue.length - c))
    have h1 : xs.length = ls.queue.length - c := by simp [xs]
    have h2 : ys.length = n - (ls.queue.length - c) := by simp [ys]; omega
    have htake : (writeAt (writeAt dst 0 xs) xs.length ys).take (xs.length + ys.length) = xs ++ ys :=
      take_writeAt_two
    rw [h1, h2, show ls.queue.length - c + (n - (ls.queue.length - c)) = n by omega] at htake
    rw [htake, hxs, List.take_of_length_le (by simp)]

theorem copy_to_new_length (hn : n ≤ ls.size) (hwf : ls.WF) {dst : List (Option α)}
    (hdst : n ≤ dst.length) : (copy_to_new ls dst n).2.length = dst.length := by
  have hm := hwf.length_pos
  have hs := hwf.size_lt
  have hlt := cellIndex_lt hm ls.head
  unfold copy_to_new
  simp only [get_position_toNat hm]
  split
  · exact writeAt_length (by simp; omega)
  · have hfirst : (writeAt dst 0 ((ls.queue.drop (cellIndex ls.queue.length ls.head)).take
        (ls.queue.length - cellIndex ls.queue.length ls.head))).length = dst.length :=
      writeAt_length (by simp; omega)
    rw [writeAt_length (by rw [hfirst]; simp; omega), hfirst]

/-- Moving `head` past `n` packets leaves the rest of the window. -/
theorem view_advance (hwf : ls.WF) (hn : n ≤ ls.size) :
    ({ ls with head := ls.head + n } : local_set_t α).view = ls.view.drop n := by
  have hsz := hwf.size_eq
  have hsize : ({ ls with head := ls.head + n } : local_set_t α).size = ls.size - n := by
    unfold size
    simp only
    omega
  unfold view
  rw [hsize]
  conv_rhs => rw [show ls.size = n + (ls.size - n) by omega, window_add]
  simp

theorem packets_of_view {ps : List α} (h : ls.view = ps.map some) : ls.packets = ps := by
  simp [packets, h, List.filterMap_map]

theorem WF.of_view (ps : List α) (hpos : 0 < ls.queue.length) (hle : ls.head ≤ ls.tail)
    (hlt : ls.size < ls.queue.length) (hv : ls.view = ps.map some) : ls.WF :=
  ⟨hpos, hle, hlt, by simp [hv]⟩

@[simp] theorem expand_size : ls.expand.size = ls.size := by
  show ((ls.size : Int) - 0).toNat = ls.size
  simp

theorem expand_queue_length (hwf : ls.WF) : ls.expand.queue.length = ls.queue.length * 2 := by
  have := hwf.size_lt
  rw [expand, copy_to_new_length le_rfl hwf (by simp; omega), List.length_replicate]

/-- The first `n` cells of the window. -/
theorem window_head_eq_take (hn : n ≤ ls.size) : window ls.queue ls.head n = ls.view.take n := by
  unfold view
  rw [show ls.size = n + (ls.size - n) by omega, window_add, List.take_left' (by simp)]

/-- The `n` cells that `copy_to_new` copied, read from cell 0 of the new queue, are the first `n`
of the source's window. -/
theorem copy_to_new_window (hwf : ls.WF) (hn : n ≤ ls.size) {dst : List (Option α)}
    (hdst : n ≤ dst.length) : window (copy_to_new ls dst n).2 0 n = ls.view.take n := by
  rw [window_eq_slice (by rw [cellIndex_zero, copy_to_new_length hn hwf hdst]; omega),
    cellIndex_zero, List.drop_zero, copy_to_new_take hwf hn, window_head_eq_take hn]

/-- `expand` rebases the window at cell 0 of the new ring and keeps it. -/
theorem expand_view (hwf : ls.WF) : ls.expand.view = ls.view := by
  have hs := hwf.size_lt
  have hwin : window (copy_to_new ls (List.replicate (ls.queue.length * 2) none) ls.size).2 0
      ls.size = ls.view.take ls.size := copy_to_new_window hwf le_rfl (by simp; omega)
  rw [List.take_of_length_le (by simp)] at hwin
  rw [← hwin]
  rfl

theorem WF.expand (hwf : ls.WF) : ls.expand.WF := by
  have := hwf.size_lt
  refine WF.of_view ls.packets (by rw [expand_queue_length hwf]; omega) ?_
    (by rw [expand_size, expand_queue_length hwf]; omega) (by rw [expand_view hwf, hwf.view_eq])
  show (0 : Int) ≤ ls.size
  omega

theorem grow_view (hwf : ls.WF) : ls.grow.view = ls.view := by
  unfold grow
  split
  · exact expand_view hwf
  · rfl

theorem WF.grow (hwf : ls.WF) : ls.grow.WF := by
  unfold local_set_t.grow
  split
  · exact hwf.expand
  · exact hwf

/-- After `grow` the ring has room for one more packet. -/
theorem grow_room (hwf : ls.WF) : ls.grow.size + 1 < ls.grow.queue.length := by
  have := hwf.size_lt
  have := hwf.length_pos
  unfold grow
  split
  · rw [expand_size, expand_queue_length hwf]
    omega
  · omega

/-- Writing the cell at `tail` of a deque with room adds a packet at the bottom. -/
theorem view_write_bot (hwf : ls.WF) (hroom : ls.size + 1 < ls.queue.length) (c : Option α) :
    ({ ls with queue := ls.queue.set (ls.get_position ls.tail).toNat c, tail := ls.tail + 1 } :
      local_set_t α).view = ls.view ++ [c] := by
  have hsz := hwf.size_eq
  have hsize : (ls.tail + 1 - ls.head).toNat = ls.size + 1 := by omega
  have hcell : (ls.get_position ls.tail).toNat = cellIndex ls.queue.length (ls.head + ls.size) := by
    rw [get_position_toNat hwf.length_pos, show ls.tail = ls.head + ls.size by omega]
  show window _ ls.head (ls.tail + 1 - ls.head).toNat = window ls.queue ls.head ls.size ++ [c]
  rw [hsize, hcell]
  exact window_push_back (by omega)

/-- Writing the cell before `head` of a deque with room adds a packet at the top. -/
theorem view_write_top (hwf : ls.WF) (hroom : ls.size + 1 < ls.queue.length) (c : Option α) :
    ({ ls with
        queue := ls.queue.set (ls.get_position (ls.head - 1)).toNat c
        head := ls.head - 1 } : local_set_t α).view = c :: ls.view := by
  have hsz := hwf.size_eq
  have hsize : (ls.tail - (ls.head - 1)).toNat = ls.size + 1 := by omega
  show window _ (ls.head - 1) (ls.tail - (ls.head - 1)).toNat = c :: window ls.queue ls.head ls.size
  rw [hsize, get_position_toNat hwf.length_pos]
  exact window_push_front (by omega)

theorem push_to_bot_view (hwf : ls.WF) (p : α) :
    (ls.push_to_bot p).view = ls.view ++ [some p] := by
  rw [← grow_view hwf]
  exact view_write_bot hwf.grow (grow_room hwf) (some p)

theorem push_to_top_view (hwf : ls.WF) (p : α) :
    (ls.push_to_top p).view = some p :: ls.view := by
  rw [← grow_view hwf]
  exact view_write_top hwf.grow (grow_room hwf) (some p)

theorem push_to_bot_packets (hwf : ls.WF) (p : α) :
    (ls.push_to_bot p).packets = ls.packets ++ [p] :=
  packets_of_view (by rw [push_to_bot_view hwf, hwf.view_eq, List.map_append, List.map_singleton])

theorem push_to_top_packets (hwf : ls.WF) (p : α) :
    (ls.push_to_top p).packets = p :: ls.packets :=
  packets_of_view (by rw [push_to_top_view hwf, hwf.view_eq, List.map_cons])

theorem WF.push_to_bot (hwf : ls.WF) (p : α) : (ls.push_to_bot p).WF := by
  have hg := hwf.grow
  have hroom := grow_room hwf
  have hsz := hg.size_eq
  have hle := hg.head_le
  refine WF.of_view (ls.packets ++ [p]) ?_ ?_ ?_ ?_
  · show 0 < (ls.grow.queue.set _ _).length
    rw [List.length_set]
    exact hg.length_pos
  · show ls.grow.head ≤ ls.grow.tail + 1
    omega
  · show (ls.grow.tail + 1 - ls.grow.head).toNat < (ls.grow.queue.set _ _).length
    rw [List.length_set]
    omega
  · rw [push_to_bot_view hwf, hwf.view_eq, List.map_append, List.map_singleton]

theorem WF.push_to_top (hwf : ls.WF) (p : α) : (ls.push_to_top p).WF := by
  have hg := hwf.grow
  have hroom := grow_room hwf
  have hsz := hg.size_eq
  have hle := hg.head_le
  refine WF.of_view (p :: ls.packets) ?_ ?_ ?_ ?_
  · show 0 < (ls.grow.queue.set _ _).length
    rw [List.length_set]
    exact hg.length_pos
  · show ls.grow.head - 1 ≤ ls.grow.tail
    omega
  · show (ls.grow.tail - (ls.grow.head - 1)).toNat < (ls.grow.queue.set _ _).length
    rw [List.length_set]
    omega
  · rw [push_to_top_view hwf, hwf.view_eq, List.map_cons]

/-- `pop_from_bot` on a deque whose packets end with `p` returns `p` and keeps the others. -/
theorem pop_from_bot_of_packets (hwf : ls.WF) {ps : List α} {p : α}
    (hp : ls.packets = ps ++ [p]) :
    ls.pop_from_bot = (some p, { ls with tail := ls.tail - 1 }) ∧
      ({ ls with tail := ls.tail - 1 } : local_set_t α).view = ps.map some := by
  have hsize : ls.size = ps.length + 1 := by
    rw [← hwf.packets_length, hp, List.length_append, List.length_singleton]
  have hsz := hwf.size_eq
  have hv : window ls.queue ls.head ps.length ++
      [cellAt ls.queue (cellIndex ls.queue.length (ls.head + ps.length))] =
      ps.map some ++ [some p] := by
    rw [← window_succ, ← hsize]
    show ls.view = _
    rw [hwf.view_eq, hp, List.map_append, List.map_singleton]
  obtain ⟨hwin, hcell⟩ := List.append_inj' hv rfl
  have hcell' := List.singleton_inj.mp hcell
  have hlast : (ls.get_position (ls.tail - 1)).toNat =
      cellIndex ls.queue.length (ls.head + ps.length) := by
    rw [get_position_toNat hwf.length_pos, show ls.tail - 1 = ls.head + ps.length by omega]
  refine ⟨?_, ?_⟩
  · rw [pop_from_bot, if_neg (by omega), hlast, hcell']
  · show window ls.queue ls.head (ls.tail - 1 - ls.head).toNat = _
    rw [show (ls.tail - 1 - ls.head).toNat = ps.length by omega, hwin]

theorem pop_from_bot_of_nil (hwf : ls.WF) (hp : ls.packets = []) : ls.pop_from_bot = (none, ls) := by
  have hsize : ls.size = 0 := by rw [← hwf.packets_length, hp, List.length_nil]
  have hsz := hwf.size_eq
  rw [pop_from_bot, if_pos (by omega)]

theorem WF.pop_from_bot (hwf : ls.WF) {ps : List α} {p : α} (hp : ls.packets = ps ++ [p]) :
    ({ ls with tail := ls.tail - 1 } : local_set_t α).WF := by
  have hsize : ls.size = ps.length + 1 := by
    rw [← hwf.packets_length, hp, List.length_append, List.length_singleton]
  have hsz := hwf.size_eq
  have hlt := hwf.size_lt
  refine WF.of_view ps hwf.length_pos (by show ls.head ≤ ls.tail - 1; omega) ?_
    (pop_from_bot_of_packets hwf hp).2
  show (ls.tail - 1 - ls.head).toNat < ls.queue.length
  omega

theorem WF.alloc (default_size : Nat) : (alloc default_size : local_set_t α).WF :=
  WF.of_view [] (by simp [local_set_t.alloc]) le_rfl (by simp [local_set_t.alloc, size]) rfl

@[simp] theorem alloc_packets (default_size : Nat) : (alloc default_size : local_set_t α).packets = [] :=
  rfl

theorem WF.advance (hwf : ls.WF) (hn : n ≤ ls.size) : ({ ls with head := ls.head + n } : local_set_t α).WF := by
  have hsz := hwf.size_eq
  have hlt := hwf.size_lt
  have hle : ls.head + n ≤ ls.tail := by omega
  have hsize : ({ ls with head := ls.head + n } : local_set_t α).size < ls.queue.length := by
    show (ls.tail - (ls.head + n)).toNat < ls.queue.length
    omega
  refine WF.of_view (ls.packets.drop n) hwf.length_pos hle hsize ?_
  rw [view_advance hwf hn, hwf.view_eq, List.map_drop]

theorem packets_advance (hwf : ls.WF) (hn : n ≤ ls.size) :
    ({ ls with head := ls.head + n } : local_set_t α).packets = ls.packets.drop n :=
  packets_of_view (by rw [view_advance hwf hn, hwf.view_eq, List.map_drop])

/-- The thief's deque after a steal: the copied cells from cell 0, `head = 0`, `tail = n`. -/
theorem stolen_view (hwf : ls.WF) (hn : n ≤ ls.size) {dst : List (Option α)}
    (hdst : n ≤ dst.length) :
    (⟨(copy_to_new ls dst n).2, 0, n⟩ : local_set_t α).view = ls.view.take n := by
  show window _ 0 ((n : Int) - 0).toNat = _
  rw [show ((n : Int) - 0).toNat = n by omega]
  exact copy_to_new_window hwf hn hdst

theorem WF.stolen (hwf : ls.WF) (hn : n ≤ ls.size) {dst : List (Option α)} (hdst : n < dst.length) :
    (⟨(copy_to_new ls dst n).2, 0, n⟩ : local_set_t α).WF := by
  have hlen := copy_to_new_length hn hwf hdst.le
  have hpos : 0 < (copy_to_new ls dst n).2.length := by omega
  have hsize : (⟨(copy_to_new ls dst n).2, 0, n⟩ : local_set_t α).size <
      (copy_to_new ls dst n).2.length := by
    show ((n : Int) - 0).toNat < _
    omega
  refine WF.of_view (ls.packets.take n) hpos (by show (0 : Int) ≤ n; omega) hsize ?_
  rw [stolen_view hwf hn hdst.le, hwf.view_eq, List.map_take]

theorem packets_stolen (hwf : ls.WF) (hn : n ≤ ls.size) {dst : List (Option α)}
    (hdst : n ≤ dst.length) :
    (⟨(copy_to_new ls dst n).2, 0, n⟩ : local_set_t α).packets = ls.packets.take n :=
  packets_of_view (by rw [stolen_view hwf hn hdst, hwf.view_eq, List.map_take])

/-- The loop of `get_n` returns the bottom `n` packets, bottom first, and keeps the rest. -/
theorem pop_n_spec (hwf : ls.WF) (n : Nat) :
    (ls.pop_n n).1 = ls.packets.reverse.take n ∧ (ls.pop_n n).2.WF ∧
      (ls.pop_n n).2.packets = ls.packets.take (ls.packets.length - n) := by
  induction n generalizing ls with
  | zero => exact ⟨rfl, hwf, by simp [pop_n]⟩
  | succ n ih =>
    rcases List.eq_nil_or_concat ls.packets with hnil | ⟨ps, p, hp⟩
    · rw [pop_n, pop_from_bot_of_nil hwf hnil]
      exact ⟨by simp [hnil], hwf, by simp [hnil]⟩
    · rw [List.concat_eq_append] at hp
      have hps := packets_of_view (pop_from_bot_of_packets hwf hp).2
      obtain ⟨hout, hwf', hrest⟩ := ih (hwf.pop_from_bot hp)
      rw [pop_n, (pop_from_bot_of_packets hwf hp).1]
      dsimp only
      refine ⟨?_, hwf', ?_⟩
      · rw [hout, hps, hp]
        simp
      · rw [hrest, hps, hp, List.length_append, List.length_singleton,
          List.take_append_of_le_length (by omega)]
        congr 1
        omega

end Ops

/-- The packets left below the bottom `n` and the bottom `n` popped are all the packets. -/
theorem take_add_reverse_take (l : List α) (n : Nat) :
    ((l.take (l.length - n) : Multiset α) + (l.reverse.take n : Multiset α)) = l := by
  rw [List.take_reverse, Multiset.coe_reverse, Multiset.coe_add, List.take_append_drop]

end local_set_t

/-- What an operation meets that the model does not decide: its `i`-th `try_lock` of its own
pool, its `i`-th `rand_mt()` and its `i`-th `try_lock` of a victim pool. -/
structure Draws where
  lock_ok : Nat → Bool
  rand : Nat → Nat
  steal_lock_ok : Nat → Bool

/-- The packet pool: `npools` deques allocated in order, and each thread's deque by its id. The
two `mpmc_array_t`s are maps; an unset entry is `nullptr`. -/
structure mpmc_set_t (α : Type) where
  default_lpool_size : Nat
  npools : Nat
  pools : Nat → Option (local_set_t α)
  tid_to_pools : Nat → Option Nat

namespace mpmc_set_t

/-- A new pool: no deque yet. -/
def init (default_lpool_size : Nat) : mpmc_set_t α :=
  ⟨default_lpool_size, 0, fun _ => none, fun _ => none⟩

/-- Store deque `ls` as pool `i`. -/
def setPool (s : mpmc_set_t α) (i : Nat) (ls : local_set_t α) : mpmc_set_t α :=
  { s with pools := Function.update s.pools i (some ls) }

/-- `get_local_pool`: the calling thread's deque, allocated as the next pool on first use. -/
def get_local_pool (s : mpmc_set_t α) (tid : Nat) : mpmc_set_t α × Nat :=
  match s.tid_to_pools tid with
  | some pool_id => (s, pool_id)
  | none =>
    ({ s with
        npools := s.npools + 1
        pools := Function.update s.pools s.npools (some (local_set_t.alloc s.default_lpool_size))
        tid_to_pools := Function.update s.tid_to_pools tid (some s.npools) }, s.npools)

/-- `get_random_pool`, by the pool's id. -/
def get_random_pool (s : mpmc_set_t α) (r : Nat) : Nat := r % s.npools

/-- One iteration of the loop of `steal_packets`: `none` where it continues. -/
def steal_attempt (s : mpmc_set_t α) (local_id : Nat) (d : Draws) (i : Nat) :
    Option (mpmc_set_t α) :=
  let pool_id := s.get_random_pool (d.rand i)
  match s.pools pool_id, s.pools local_id with
  | some random_pool, some local_pool =>
    if pool_id = local_id ∨ random_pool.size ≤ 0 then none
    else if !d.steal_lock_ok i then none
    else
      let size_to_steal := (random_pool.size + 1) / 2
      if size_to_steal = 0 then none
      else
        let moved := local_set_t.copy_to_new random_pool
          (resize local_pool.queue (max s.default_lpool_size (size_to_steal * 2) + 1) none)
          size_to_steal
        some ((s.setPool pool_id moved.1).setPool local_id ⟨moved.2, 0, size_to_steal⟩)
  | _, _ => none

/-- `steal_packets`: the first of `max_steal_attempts` iterations that steals. -/
def steal_packets (s : mpmc_set_t α) (local_id : Nat) (d : Draws) (max_steal_attempts : Nat) :
    mpmc_set_t α × Bool :=
  match (List.range max_steal_attempts).findSome? (s.steal_attempt local_id d) with
  | some s' => (s', true)
  | none => (s, false)

/-- The line of `get_n` that steals into its deque when it is empty. -/
def steal_if_empty (s : mpmc_set_t α) (local_id : Nat) (d : Draws) (max_steal_attempts : Nat) :
    mpmc_set_t α :=
  match s.pools local_id with
  | some local_pool =>
    if local_pool.size = 0 then (s.steal_packets local_id d max_steal_attempts).1 else s
  | none => s

/-- The loop of `get_n` on deque `local_id`, with the packets it returns. -/
def pop_local (s : mpmc_set_t α) (local_id n : Nat) : mpmc_set_t α × List α :=
  match s.pools local_id with
  | some local_pool => (s.setPool local_id (local_pool.pop_n n).2, (local_pool.pop_n n).1)
  | none => (s, [])

/-- `get_n` by thread `tid`: lock the own deque within `max_retry_attempts` tries, steal when it
is empty, then pop up to `n` packets from its bottom. -/
def get_n (s : mpmc_set_t α) (tid n max_retry_attempts : Nat) (d : Draws) :
    mpmc_set_t α × List α :=
  let acquired := s.get_local_pool tid
  if !(List.range max_retry_attempts).any d.lock_ok then (acquired.1, [])
  else (acquired.1.steal_if_empty acquired.2 d max_retry_attempts).pop_local acquired.2 n

/-- `put` by thread `self`: to the bottom of its own deque when `tid < 0`, else to its top. -/
def put (s : mpmc_set_t α) (packet : α) (tid : Int) (self : Nat) : mpmc_set_t α :=
  let acquired := s.get_local_pool self
  match acquired.1.pools acquired.2 with
  | some local_pool =>
    acquired.1.setPool acquired.2
      (if tid < 0 then local_pool.push_to_bot packet else local_pool.push_to_top packet)
  | none => acquired.1

/-- The packets of pool `i`, from its top. -/
def poolList (s : mpmc_set_t α) (i : Nat) : List α :=
  match s.pools i with
  | some ls => ls.packets
  | none => []

/-- The packets of all pools. -/
def contents (s : mpmc_set_t α) : Multiset α :=
  ∑ i ∈ Finset.range s.npools, (s.poolList i : Multiset α)

/-- Every pool below `npools` is allocated and well formed, and every thread's pool is one. -/
structure Inv (s : mpmc_set_t α) : Prop where
  wf : ∀ i ls, s.pools i = some ls → ls.WF
  allocated : ∀ i < s.npools, ∃ ls, s.pools i = some ls
  tid_lt : ∀ tid i, s.tid_to_pools tid = some i → i < s.npools

section Pools

variable {s : mpmc_set_t α} {i j : Nat} {ls : local_set_t α}

@[simp] theorem setPool_npools : (s.setPool i ls).npools = s.npools := rfl

@[simp] theorem setPool_default_lpool_size :
    (s.setPool i ls).default_lpool_size = s.default_lpool_size := rfl

@[simp] theorem setPool_tid_to_pools : (s.setPool i ls).tid_to_pools = s.tid_to_pools := rfl

theorem setPool_pools_self : (s.setPool i ls).pools i = some ls := by
  simp [setPool]

theorem setPool_pools_ne (h : j ≠ i) : (s.setPool i ls).pools j = s.pools j := by
  simp [setPool, h]

theorem poolList_of_pools (h : s.pools i = some ls) : s.poolList i = ls.packets := by
  simp [poolList, h]

theorem poolList_setPool_ne (h : j ≠ i) : (s.setPool i ls).poolList j = s.poolList j := by
  simp [poolList, setPool_pools_ne h]

/-- Replacing a pool changes the contents by the two deques' packets. -/
theorem contents_setPool (hi : i < s.npools) (ls : local_set_t α) :
    (s.setPool i ls).contents + s.poolList i = s.contents + ls.packets := by
  have hmem := Finset.mem_range.mpr hi
  have hrest : ∑ j ∈ (Finset.range s.npools).erase i, ((s.setPool i ls).poolList j : Multiset α) =
      ∑ j ∈ (Finset.range s.npools).erase i, (s.poolList j : Multiset α) :=
    Finset.sum_congr rfl fun j hj => by rw [poolList_setPool_ne (Finset.ne_of_mem_erase hj)]
  unfold contents
  rw [setPool_npools, ← Finset.add_sum_erase _ _ hmem, ← Finset.add_sum_erase _ _ hmem, hrest,
    poolList_of_pools setPool_pools_self]
  abel

theorem Inv.setPool (hinv : s.Inv) (hi : i < s.npools) (hwf : ls.WF) : (s.setPool i ls).Inv where
  wf j ls' h := by
    by_cases hj : j = i
    · subst hj
      rw [setPool_pools_self, Option.some.injEq] at h
      exact h ▸ hwf
    · exact hinv.wf j ls' (by rwa [setPool_pools_ne hj] at h)
  allocated j hj := by
    by_cases hji : j = i
    · exact ⟨ls, hji ▸ setPool_pools_self⟩
    · rw [setPool_pools_ne hji]
      exact hinv.allocated j hj
  tid_lt := hinv.tid_lt

theorem Inv.pool (hinv : s.Inv) (hi : i < s.npools) : ∃ ls, s.pools i = some ls ∧ ls.WF := by
  obtain ⟨ls, h⟩ := hinv.allocated i hi
  exact ⟨ls, h, hinv.wf i ls h⟩

/-- `get_local_pool` keeps the invariant and the contents and returns an allocated pool. -/
theorem get_local_pool_spec (hinv : s.Inv) (tid : Nat) :
    (s.get_local_pool tid).1.Inv ∧ (s.get_local_pool tid).2 < (s.get_local_pool tid).1.npools ∧
      (s.get_local_pool tid).1.contents = s.contents ∧
      (s.get_local_pool tid).1.default_lpool_size = s.default_lpool_size := by
  unfold get_local_pool
  split
  · rename_i pool_id h
    exact ⟨hinv, hinv.tid_lt tid pool_id h, rfl, rfl⟩
  · dsimp only
    refine ⟨⟨?_, ?_, ?_⟩, Nat.lt_succ_self _, ?_, rfl⟩
    · intro j ls' h
      by_cases hj : j = s.npools
      · subst hj
        simp only [Function.update_self, Option.some.injEq] at h
        exact h ▸ local_set_t.WF.alloc _
      · exact hinv.wf j ls' (by simpa [hj] using h)
    · intro j (hj : j < s.npools + 1)
      by_cases hjn : j = s.npools
      · exact ⟨local_set_t.alloc s.default_lpool_size, by simp [hjn]⟩
      · simpa [hjn] using hinv.allocated j (by omega)
    · intro tid' j h
      show j < s.npools + 1
      by_cases ht : tid' = tid
      · subst ht
        simp only [Function.update_self, Option.some.injEq] at h
        omega
      · have := hinv.tid_lt tid' j (by simpa [ht] using h)
        omega
    · unfold contents
      rw [Finset.sum_range_succ]
      have hnew : (poolList { s with
          npools := s.npools + 1
          pools := Function.update s.pools s.npools (some (local_set_t.alloc s.default_lpool_size))
          tid_to_pools := Function.update s.tid_to_pools tid (some s.npools) } s.npools) = [] := by
        simp [poolList]
      rw [hnew, Multiset.coe_nil, add_zero]
      refine Finset.sum_congr rfl fun j hj => ?_
      have : j ≠ s.npools := by simp at hj; omega
      simp [poolList, this]

/-- A steal that succeeds takes the victim's top `(size + 1) / 2` packets into the thief's
deque and leaves the victim the rest. -/
theorem steal_attempt_spec (hinv : s.Inv) {local_id : Nat} (hl : local_id < s.npools) {d : Draws}
    {k : Nat} {s' : mpmc_set_t α} (h : s.steal_attempt local_id d k = some s') :
    ∃ pool_id random_pool victim thief, pool_id < s.npools ∧ pool_id ≠ local_id ∧
      s.pools pool_id = some random_pool ∧ victim.WF ∧ thief.WF ∧
      victim.packets = random_pool.packets.drop ((random_pool.size + 1) / 2) ∧
      thief.packets = random_pool.packets.take ((random_pool.size + 1) / 2) ∧
      s' = (s.setPool pool_id victim).setPool local_id thief := by
  have hlt : d.rand k % s.npools < s.npools := Nat.mod_lt _ (by omega)
  unfold steal_attempt get_random_pool at h
  rcases hr : s.pools (d.rand k % s.npools) with _ | random_pool
  · simp [hr] at h
  rcases hloc : s.pools local_id with _ | local_pool
  · simp [hr, hloc] at h
  simp only [hr, hloc] at h
  split_ifs at h with hskip hlock hzero
  cases h
  have hwf := hinv.wf _ _ hr
  have hsts : (random_pool.size + 1) / 2 ≤ random_pool.size := by omega
  have hq : (random_pool.size + 1) / 2 < (resize local_pool.queue
      (max s.default_lpool_size ((random_pool.size + 1) / 2 * 2) + 1) none).length := by
    rw [resize_length]
    omega
  refine ⟨_, random_pool, _, _, hlt, fun heq => hskip (.inl heq), hr, ?_, hwf.stolen hsts hq,
    ?_, local_set_t.packets_stolen hwf hsts hq.le, rfl⟩
  · rw [local_set_t.copy_to_new_fst]
    exact hwf.advance hsts
  · rw [local_set_t.copy_to_new_fst]
    exact local_set_t.packets_advance hwf hsts

/-- A steal into an empty deque keeps the invariant and the contents. -/
theorem steal_attempt_conserves (hinv : s.Inv) {local_id : Nat} (hl : local_id < s.npools)
    (hempty : s.poolList local_id = []) {d : Draws} {k : Nat} {s' : mpmc_set_t α}
    (h : s.steal_attempt local_id d k = some s') :
    s'.Inv ∧ s'.contents = s.contents ∧ s'.npools = s.npools := by
  obtain ⟨v, rp, victim, thief, hv, hvl, hrp, hwfv, hwft, hpv, hpt, rfl⟩ :=
    steal_attempt_spec hinv hl h
  refine ⟨(hinv.setPool hv hwfv).setPool hl hwft, ?_, rfl⟩
  have hthief := contents_setPool (s := s.setPool v victim) hl thief
  have hvictim := contents_setPool hv victim
  rw [poolList_setPool_ne (Ne.symm hvl), hempty, Multiset.coe_nil, add_zero] at hthief
  rw [poolList_of_pools hrp] at hvictim
  have hsplit : ((victim.packets : Multiset α) + thief.packets) = rp.packets := by
    rw [hpv, hpt, add_comm, Multiset.coe_add, List.take_append_drop]
  apply (add_left_inj (rp.packets : Multiset α)).mp
  calc _ = (s.setPool v victim).contents + rp.packets + thief.packets := by
        rw [hthief, add_right_comm]
    _ = s.contents + (victim.packets + thief.packets) := by rw [hvictim, add_assoc]
    _ = s.contents + rp.packets := by rw [hsplit]

theorem steal_packets_conserves (hinv : s.Inv) {local_id : Nat} (hl : local_id < s.npools)
    (hempty : s.poolList local_id = []) (d : Draws) (m : Nat) :
    (s.steal_packets local_id d m).1.Inv ∧ (s.steal_packets local_id d m).1.contents = s.contents ∧
      (s.steal_packets local_id d m).1.npools = s.npools := by
  unfold steal_packets
  split
  · rename_i s' h
    obtain ⟨k, -, hk⟩ := List.exists_of_findSome?_eq_some h
    exact steal_attempt_conserves hinv hl hempty hk
  · exact ⟨hinv, rfl, rfl⟩

theorem steal_if_empty_conserves (hinv : s.Inv) {local_id : Nat} (hl : local_id < s.npools)
    (d : Draws) (m : Nat) :
    (s.steal_if_empty local_id d m).Inv ∧ (s.steal_if_empty local_id d m).contents = s.contents ∧
      (s.steal_if_empty local_id d m).npools = s.npools := by
  obtain ⟨ls, hls, hwf⟩ := hinv.pool hl
  unfold steal_if_empty
  simp only [hls]
  split
  · rename_i hsize
    have hempty : s.poolList local_id = [] := by
      rw [poolList_of_pools hls, ← List.length_eq_zero_iff, hwf.packets_length, hsize]
    exact steal_packets_conserves hinv hl hempty d m
  · exact ⟨hinv, rfl, rfl⟩

/-- The loop of `get_n` returns the bottom `n` packets of the deque and takes them out. -/
theorem pop_local_spec (hinv : s.Inv) {local_id : Nat} (hl : local_id < s.npools) (n : Nat) :
    (s.pop_local local_id n).1.Inv ∧
      (s.pop_local local_id n).1.contents + (s.pop_local local_id n).2 = s.contents ∧
      (s.pop_local local_id n).2 = (s.poolList local_id).reverse.take n := by
  obtain ⟨ls, hls, hwf⟩ := hinv.pool hl
  obtain ⟨hout, hwf', hrest⟩ := local_set_t.pop_n_spec hwf n
  have hc := contents_setPool hl (ls.pop_n n).2
  rw [poolList_of_pools hls, hrest] at hc
  unfold pop_local
  simp only [hls]
  refine ⟨hinv.setPool hl hwf', ?_, by rw [hout, poolList_of_pools hls]⟩
  apply (add_left_inj (ls.packets : Multiset α)).mp
  rw [add_right_comm, hc, hout, add_assoc, local_set_t.take_add_reverse_take]

/-- `get_n` keeps the invariant and returns at most `n` packets, taken out of the pool. -/
theorem get_n_spec (hinv : s.Inv) (tid n m : Nat) (d : Draws) :
    (s.get_n tid n m d).1.Inv ∧
      (s.get_n tid n m d).1.contents + (s.get_n tid n m d).2 = s.contents ∧
      (s.get_n tid n m d).2.length ≤ n := by
  obtain ⟨hinv1, hl, hc1, -⟩ := get_local_pool_spec hinv tid
  unfold get_n
  dsimp only
  split
  · exact ⟨hinv1, by rw [Multiset.coe_nil, add_zero, hc1], Nat.zero_le n⟩
  · obtain ⟨hinv2, hc2, hn2⟩ := steal_if_empty_conserves hinv1 hl d m
    obtain ⟨hinv3, hc3, hout⟩ := pop_local_spec hinv2 (hn2 ▸ hl) n
    exact ⟨hinv3, by rw [hc3, hc2, hc1], by rw [hout]; exact List.length_take_le _ _⟩

/-- `put` keeps the invariant and adds the packet to the pool. -/
theorem put_spec (hinv : s.Inv) (packet : α) (tid : Int) (self : Nat) :
    (s.put packet tid self).Inv ∧ (s.put packet tid self).contents = packet ::ₘ s.contents := by
  obtain ⟨hinv1, hl, hc1, -⟩ := get_local_pool_spec hinv self
  obtain ⟨ls, hls, hwf⟩ := hinv1.pool hl
  have hpush : (if tid < 0 then ls.push_to_bot packet else ls.push_to_top packet).WF ∧
      ((if tid < 0 then ls.push_to_bot packet else ls.push_to_top packet).packets : Multiset α) =
        packet ::ₘ ls.packets := by
    split
    · refine ⟨hwf.push_to_bot packet, ?_⟩
      rw [local_set_t.push_to_bot_packets hwf, ← Multiset.coe_add, add_comm]
      rfl
    · exact ⟨hwf.push_to_top packet, by rw [local_set_t.push_to_top_packets hwf]; rfl⟩
  have hc := contents_setPool hl (if tid < 0 then ls.push_to_bot packet else ls.push_to_top packet)
  rw [poolList_of_pools hls, hpush.2, hc1] at hc
  unfold put
  simp only [hls]
  refine ⟨hinv1.setPool hl hpush.1, ?_⟩
  apply (add_left_inj (ls.packets : Multiset α)).mp
  rw [hc, Multiset.add_cons, Multiset.cons_add]

/-- What a steal does to the pools: the thief holds the victim's top `(size + 1) / 2` packets,
the victim the rest, every other pool is as it was, and nothing is lost when the thief was
empty. -/
theorem steal_attempt_moves (hinv : s.Inv) {local_id : Nat} (hl : local_id < s.npools)
    {d : Draws} {k : Nat} {s' : mpmc_set_t α} (h : s.steal_attempt local_id d k = some s') :
    ∃ pool_id random_pool, pool_id ≠ local_id ∧ s.pools pool_id = some random_pool ∧
      s'.poolList local_id = random_pool.packets.take ((random_pool.size + 1) / 2) ∧
      s'.poolList pool_id = random_pool.packets.drop ((random_pool.size + 1) / 2) ∧
      (∀ j, j ≠ pool_id → j ≠ local_id → s'.pools j = s.pools j) ∧
      (s.poolList local_id = [] → s'.contents = s.contents) := by
  obtain ⟨v, rp, victim, thief, -, hvl, hrp, -, -, hpv, hpt, rfl⟩ := steal_attempt_spec hinv hl h
  refine ⟨v, rp, hvl, hrp, ?_, ?_, fun j hjv hjl => ?_,
    fun hempty => (steal_attempt_conserves hinv hl hempty h).2.1⟩
  · rw [poolList_of_pools setPool_pools_self, hpt]
  · rw [poolList_setPool_ne hvl, poolList_of_pools setPool_pools_self, hpv]
  · rw [setPool_pools_ne hjl, setPool_pools_ne hjv]

end Pools

end mpmc_set_t

/-- A run of the pool with what it has handed over: every packet `put` (`puts`), every packet
`get_n` returned (`given`), those returned and not put back since (`out`), and those put while
not out (`introduced`). -/
structure PoolRun (α : Type) where
  set : mpmc_set_t α
  puts : Multiset α
  given : Multiset α
  out : Multiset α
  introduced : Multiset α

/-- An operation of some thread on the pool, with what it draws. -/
inductive Op (α : Type)
  | put (packet : α) (tid : Int) (self : Nat)
  | get_n (tid n max_retry_attempts : Nat) (d : Draws)

namespace PoolRun

variable [DecidableEq α] {g : PoolRun α}

def init (default_lpool_size : Nat) : PoolRun α :=
  ⟨mpmc_set_t.init default_lpool_size, 0, 0, 0, 0⟩

/-- One whole operation, each under its deque's lock. -/
def step (g : PoolRun α) : Op α → PoolRun α
  | .put packet tid self =>
    { set := g.set.put packet tid self
      puts := packet ::ₘ g.puts
      given := g.given
      out := g.out.erase packet
      introduced := if packet ∈ g.out then g.introduced else packet ::ₘ g.introduced }
  | .get_n tid n max_retry_attempts d =>
    { g with
      set := (g.set.get_n tid n max_retry_attempts d).1
      given := g.given + (g.set.get_n tid n max_retry_attempts d).2
      out := g.out + (g.set.get_n tid n max_retry_attempts d).2 }

/-- The runs of a new pool under any operations of any threads. -/
def Reachable : PoolRun α → Prop :=
  Machine.Reachable (fun g => ∃ d, g = init d) (fun g g' => ∃ op, g.step op = g')

/-- What every run keeps: the invariant, and no packet lost or duplicated. -/
structure Conserved (g : PoolRun α) : Prop where
  inv : g.set.Inv
  put_given : g.set.contents + g.given = g.puts
  put_out : g.set.contents + g.out = g.introduced

omit [DecidableEq α] in
theorem init_conserved (d : Nat) : (init d : PoolRun α).Conserved where
  inv :=
    { wf := fun _ _ h => by simp [init, mpmc_set_t.init] at h
      allocated := fun _ h => absurd h (Nat.not_lt_zero _)
      tid_lt := fun _ _ h => by simp [init, mpmc_set_t.init] at h }
  put_given := by simp [init, mpmc_set_t.contents, mpmc_set_t.init]
  put_out := by simp [init, mpmc_set_t.contents, mpmc_set_t.init]

theorem step_conserved (hg : g.Conserved) (op : Op α) : (g.step op).Conserved := by
  cases op with
  | put packet tid self =>
    obtain ⟨hinv, hc⟩ := mpmc_set_t.put_spec hg.inv packet tid self
    refine ⟨hinv, ?_, ?_⟩
    · show (g.set.put packet tid self).contents + g.given = packet ::ₘ g.puts
      rw [hc, Multiset.cons_add, hg.put_given]
    · show (g.set.put packet tid self).contents + g.out.erase packet =
        if packet ∈ g.out then g.introduced else packet ::ₘ g.introduced
      rw [hc]
      split
      · rename_i hmem
        rw [Multiset.cons_add, ← Multiset.add_cons, Multiset.cons_erase hmem, hg.put_out]
      · rename_i hmem
        rw [Multiset.erase_of_notMem hmem, Multiset.cons_add, hg.put_out]
  | get_n tid n m d =>
    obtain ⟨hinv, hc, -⟩ := mpmc_set_t.get_n_spec hg.inv tid n m d
    refine ⟨hinv, ?_, ?_⟩
    · show (g.set.get_n tid n m d).1.contents + (g.given + (g.set.get_n tid n m d).2) = g.puts
      rw [← hg.put_given, ← hc, add_comm g.given, add_assoc]
    · show (g.set.get_n tid n m d).1.contents + (g.out + (g.set.get_n tid n m d).2) = g.introduced
      rw [← hg.put_out, ← hc, add_comm g.out, add_assoc]

theorem Reachable.conserved (hg : g.Reachable) : g.Conserved := by
  refine Machine.Reachable.induction_inv ?_ ?_ hg
  · rintro _ ⟨d, rfl⟩
    exact init_conserved d
  · rintro g _ hc ⟨op, rfl⟩
    exact step_conserved hc op

/-- **Packet conservation.** In every run of a new pool, by any operations of any threads: the
pools' packets and those handed out make up every packet put, and, counting those handed out and
not put back, every packet put while not out; every cell of every window is a packet; `get_n`
returns at most `n` packets, all taken out of the pool; and a steal gives the thief the victim's
top `(size + 1) / 2` packets and leaves the victim the rest. -/
theorem packet_conservation {g : PoolRun α} (hg : g.Reachable) :
    g.set.contents + g.given = g.puts ∧ g.set.contents + g.out = g.introduced ∧
      (∀ i ls, g.set.pools i = some ls → ∀ c ∈ ls.view, c.isSome) ∧
      (∀ tid n m d, (g.set.get_n tid n m d).2.length ≤ n ∧
        (g.set.get_n tid n m d).1.contents + (g.set.get_n tid n m d).2 = g.set.contents) ∧
      (∀ local_id d k s', local_id < g.set.npools → g.set.steal_attempt local_id d k = some s' →
        ∃ pool_id random_pool, pool_id ≠ local_id ∧ g.set.pools pool_id = some random_pool ∧
          s'.poolList local_id = random_pool.packets.take ((random_pool.size + 1) / 2) ∧
          s'.poolList pool_id = random_pool.packets.drop ((random_pool.size + 1) / 2) ∧
          (∀ j, j ≠ pool_id → j ≠ local_id → s'.pools j = g.set.pools j) ∧
          (g.set.poolList local_id = [] → s'.contents = g.set.contents)) := by
  have hc := hg.conserved
  refine ⟨hc.put_given, hc.put_out, fun i ls h => (hc.inv.wf i ls h).filled, fun tid n m d => ?_,
    fun local_id d k s' hl h => mpmc_set_t.steal_attempt_moves hc.inv hl h⟩
  obtain ⟨-, hout, hlen⟩ := mpmc_set_t.get_n_spec hc.inv tid n m d
  exact ⟨hlen, hout⟩

/-- A packet put by thread 0 of a new pool and taken back by it. -/
theorem packet_conservation_put_get :
    let g : PoolRun Nat := ((init 4).step (.put 7 (-1) 0)).step
      (.get_n 0 1 1 ⟨fun _ => true, fun _ => 0, fun _ => true⟩)
    g.Reachable ∧
      (g.set.contents + g.given = g.puts ∧ g.set.contents + g.out = g.introduced ∧
      (∀ i ls, g.set.pools i = some ls → ∀ c ∈ ls.view, c.isSome) ∧
      (∀ tid n m d, (g.set.get_n tid n m d).2.length ≤ n ∧
        (g.set.get_n tid n m d).1.contents + (g.set.get_n tid n m d).2 = g.set.contents) ∧
      (∀ local_id d k s', local_id < g.set.npools → g.set.steal_attempt local_id d k = some s' →
        ∃ pool_id random_pool, pool_id ≠ local_id ∧ g.set.pools pool_id = some random_pool ∧
          s'.poolList local_id = random_pool.packets.take ((random_pool.size + 1) / 2) ∧
          s'.poolList pool_id = random_pool.packets.drop ((random_pool.size + 1) / 2) ∧
          (∀ j, j ≠ pool_id → j ≠ local_id → s'.pools j = g.set.pools j) ∧
          (g.set.poolList local_id = [] → s'.contents = g.set.contents))) :=
  have hg : (((init 4).step (.put 7 (-1) 0)).step
      (.get_n 0 1 1 ⟨fun _ => true, fun _ => 0, fun _ => true⟩) : PoolRun Nat).Reachable :=
    .step (.step (.init ⟨4, rfl⟩) ⟨_, rfl⟩) ⟨_, rfl⟩
  ⟨hg, packet_conservation hg⟩

end PoolRun

end Lci.MpmcSet
