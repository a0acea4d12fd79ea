import Mathlib

/-! A circular buffer of cells addressed by signed indices: index `i` of a ring of `m` cells is
cell `i mod m`. The `n` cells from index `h` on are the buffer's window. A write to a cell outside
the window leaves it alone, so writing the cell just past either end grows the window at that end,
and moving an end past a cell shrinks it. A window that does not wrap is a slice of the cells, one
that wraps is a suffix followed by a prefix; `writeAt` is `memcpy` into a list. An array whose
slots were each written by one of as many writers, at distinct slots, holds a permutation of what
they wrote (`perm_of_slots`). -/

namespace Lci.Ring

variable {α : Type}

/-- The cell of index `i` in a ring of `m` cells. -/
def cellIndex (m : Nat) (i : Int) : Nat := (i % (m : Int)).toNat

/-- The content of cell `j`, empty past the end. -/
def cellAt (cells : List (Option α)) (j : Nat) : Option α := cells.getD j none

/-- The `n` cells from index `h` on. -/
def window (cells : List (Option α)) (h : Int) (n : Nat) : List (Option α) :=
  (List.range n).map fun k : Nat => cellAt cells (cellIndex cells.length (h + (k : Int)))

/-- `memcpy` of `xs` into `dst` at offset `off`. -/
def writeAt (dst : List α) (off : Nat) (xs : List α) : List α :=
  dst.take off ++ xs ++ dst.drop (off + xs.length)

/-- `std::vector::resize` to `k` cells, new cells holding `a`. -/
def resize (xs : List α) (k : Nat) (a : α) : List α :=
  xs.take k ++ List.replicate (k - xs.length) a

section Index

variable {m : Nat}

theorem cellIndex_cast (hm : 0 < m) (i : Int) : (cellIndex m i : Int) = i % m :=
  Int.toNat_of_nonneg (Int.emod_nonneg _ (by omega))

theorem cellIndex_lt (hm : 0 < m) (i : Int) : cellIndex m i < m := by
  have h1 := cellIndex_cast hm i
  have h2 := Int.emod_lt_of_pos i (by omega : (0 : Int) < m)
  omega

theorem cellIndex_add (hm : 0 < m) (h : Int) (k : Nat) :
    cellIndex m (h + k) = (cellIndex m h + k) % m := by
  have hmod : (((cellIndex m h + k) % m : Nat) : Int) = (h + k) % m := by
    rw [Int.natCast_mod, Nat.cast_add, cellIndex_cast hm, Int.emod_add_emod]
  exact_mod_cast (cellIndex_cast hm (h + k)).trans hmod.symm

@[simp] theorem cellIndex_zero : cellIndex m 0 = 0 := by
  simp [cellIndex]

/-- Indices less than `m` apart are in different cells. -/
theorem cellIndex_inj (hm : 0 < m) {h : Int} {a b : Nat} (ha : a < m) (hb : b < m)
    (hab : cellIndex m (h + a) = cellIndex m (h + b)) : a = b := by
  rw [cellIndex_add hm, cellIndex_add hm] at hab
  have := cellIndex_lt hm h
  rcases Nat.lt_or_ge (cellIndex m h + a) m with h1 | h1 <;>
    rcases Nat.lt_or_ge (cellIndex m h + b) m with h2 | h2
  · rw [Nat.mod_eq_of_lt h1, Nat.mod_eq_of_lt h2] at hab
    omega
  · rw [Nat.mod_eq_of_lt h1, Nat.mod_eq_sub_mod h2, Nat.mod_eq_of_lt (by omega)] at hab
    omega
  · rw [Nat.mod_eq_sub_mod h1, Nat.mod_eq_of_lt (by omega), Nat.mod_eq_of_lt h2] at hab
    omega
  · rw [Nat.mod_eq_sub_mod h1, Nat.mod_eq_of_lt (by omega), Nat.mod_eq_sub_mod h2,
      Nat.mod_eq_of_lt (by omega)] at hab
    omega

end Index

section Cells

variable {cells : List (Option α)} {j : Nat} {v : Option α}

theorem cellAt_of_lt (hj : j < cells.length) : cellAt cells j = cells[j] := by
  simp [cellAt, List.getD_eq_getElem?_getD, hj]

theorem cellAt_set_self (hj : j < cells.length) : cellAt (cells.set j v) j = v := by
  simp [cellAt, List.getD_eq_getElem?_getD, hj]

theorem cellAt_set_ne {i : Nat} (hij : j ≠ i) : cellAt (cells.set j v) i = cellAt cells i := by
  simp [cellAt, List.getD_eq_getElem?_getD, List.getElem?_set_ne hij]

end Cells

section Window

variable {cells : List (Option α)} {h : Int} {n : Nat}

@[simp] theorem window_length : (window cells h n).length = n := by
  simp [window]

@[simp] theorem window_zero : window cells h 0 = [] := rfl

theorem getElem_window {k : Nat} (hk : k < (window cells h n).length) :
    (window cells h n)[k] = cellAt cells (cellIndex cells.length (h + k)) := by
  simp [window]

theorem window_succ :
    window cells h (n + 1) =
      window cells h n ++ [cellAt cells (cellIndex cells.length (h + n))] := by
  simp [window, List.range_succ]

theorem window_succ_left :
    window cells h (n + 1) =
      cellAt cells (cellIndex cells.length h) :: window cells (h + 1) n := by
  unfold window
  rw [List.range_succ_eq_map, List.map_cons, List.map_map]
  congr 1
  · simp
  · refine List.map_congr_left fun k _ => ?_
    simp only [Function.comp_apply]
    congr 2
    push_cast
    ring

theorem window_add {m : Nat} :
    window cells h (n + m) = window cells h n ++ window cells (h + n) m := by
  induction m with
  | zero => simp
  | succ m ih =>
    rw [← Nat.add_assoc, window_succ, ih, window_succ, List.append_assoc, Nat.cast_add,
      Int.add_assoc]

theorem window_congr {cells' : List (Option α)} (hlen : cells'.length = cells.length)
    (hc : ∀ k < n, cellAt cells' (cellIndex cells.length (h + k)) =
      cellAt cells (cellIndex cells.length (h + k))) :
    window cells' h n = window cells h n := by
  unfold window
  rw [hlen]
  exact List.map_congr_left fun k hk => hc k (List.mem_range.mp hk)

/-- A write to a cell outside the window leaves the window alone. -/
theorem window_set_outside (hj : ∀ k < n, cellIndex cells.length (h + k) ≠ j) :
    window (cells.set j v) h n = window cells h n :=
  window_congr (List.length_set ..) fun k hk => cellAt_set_ne (hj k hk).symm

/-- Writing the cell just past the end grows the window at the end. -/
theorem window_push_back (hn : n < cells.length) :
    window (cells.set (cellIndex cells.length (h + n)) v) h (n + 1) = window cells h n ++ [v] := by
  have hm : 0 < cells.length := by omega
  rw [window_succ, List.length_set, cellAt_set_self (cellIndex_lt hm _)]
  congr 1
  refine window_set_outside fun k hk heq => ?_
  have := cellIndex_inj hm (h := h) (by omega) hn heq
  omega

/-- Writing the cell just before the start grows the window at the start. -/
theorem window_push_front (hn : n < cells.length) :
    window (cells.set (cellIndex cells.length (h - 1)) v) (h - 1) (n + 1) =
      v :: window cells h n := by
  have hm : 0 < cells.length := by omega
  rw [window_succ_left, List.length_set, cellAt_set_self (cellIndex_lt hm _), sub_add_cancel]
  congr 1
  refine window_set_outside fun k hk heq => ?_
  have h1 : h + k = h - 1 + ((k + 1 : Nat) : Int) := by push_cast; ring
  have heq' : cellIndex cells.length (h - 1 + ((k + 1 : Nat) : Int)) =
      cellIndex cells.length (h - 1 + ((0 : Nat) : Int)) := by
    rw [← h1, Nat.cast_zero, add_zero]
    exact heq
  have := cellIndex_inj hm (by omega) hm heq'
  omega

/-- A window that does not wrap is a slice of the cells. -/
theorem window_eq_slice (hn : cellIndex cells.length h + n ≤ cells.length) :
    window cells h n = (cells.drop (cellIndex cells.length h)).take n := by
  apply List.ext_getElem (by simp; omega)
  intro k hk _
  have hm : 0 < cells.length := by
    rcases Nat.eq_zero_or_pos cells.length with h0 | h0
    · simp at hk; omega
    · exact h0
  rw [getElem_window, cellIndex_add hm, Nat.mod_eq_of_lt (by simp at hk; omega),
    cellAt_of_lt (by simp at hk; omega)]
  simp [Nat.add_comm]

/-- A window that wraps is the cells from its start followed by the first cells. -/
theorem window_eq_wrap (hm : 0 < cells.length) (hn : cells.length < cellIndex cells.length h + n)
    (hn' : n ≤ cells.length) :
    window cells h n =
      cells.drop (cellIndex cells.length h) ++
        cells.take (n - (cells.length - cellIndex cells.length h)) := by
  have hlt := cellIndex_lt hm h
  apply List.ext_getElem (by simp; omega)
  intro k hk _
  simp only [window_length] at hk
  rw [getElem_window, cellIndex_add hm, List.getElem_append]
  split
  · rename_i hk'
    simp only [List.length_drop] at hk'
    rw [Nat.mod_eq_of_lt (by omega), cellAt_of_lt (by omega)]
    simp [Nat.add_comm]
  · rename_i hk'
    simp only [List.length_drop] at hk'
    rw [Nat.mod_eq_sub_mod (by omega), Nat.mod_eq_of_lt (by omega), cellAt_of_lt (by omega)]
    simp only [List.getElem_take, List.length_drop]
    congr 1
    omega

end Window

section Write

variable {dst xs ys : List α}

@[simp] theorem writeAt_length {off : Nat} (h : off + xs.length ≤ dst.length) :
    (writeAt dst off xs).length = dst.length := by
  simp [writeAt]
  omega

@[simp] theorem resize_length {k : Nat} {a : α} : (resize xs k a).length = k := by
  simp [resize]
  omega

theorem take_writeAt_zero :
    (writeAt dst 0 xs).take xs.length = xs := by
  simp [writeAt]

theorem take_writeAt_two :
    (writeAt (writeAt dst 0 xs) xs.length ys).take (xs.length + ys.length) = xs ++ ys := by
  simp [writeAt, List.take_append]

end Write

section Slots

variable {β : Type}

/-- What `f` reads of an element, looked up by index, is unchanged by appending an element it
reads nothing of. -/
theorem getElem?_bind_append_of_none {f : α → Option β} {a : α} (ha : f a = none) (l : List α)
    (j : Nat) : (l ++ [a])[j]?.bind f = l[j]?.bind f := by
  rcases Nat.lt_or_ge j l.length with hj | hj
  · rw [List.getElem?_append_left hj]
  · rw [List.getElem?_append_right hj, List.getElem?_eq_none hj]
    rcases Nat.eq_or_lt_of_le hj with rfl | hj'
    · simp [ha]
    · rw [List.getElem?_eq_none (by simp only [List.length_singleton]; omega)]

theorem getElem?_bind_set {f : α → Option β} {l : List α} {i : Nat} (hi : i < l.length) (a : α)
    (j : Nat) : (l.set i a)[j]?.bind f = if i = j then f a else l[j]?.bind f := by
  by_cases hij : i = j
  · subst hij
    simp [hi]
  · simp [List.getElem?_set_ne hij, hij]

/-- Replacing an element by one `f` reads alike leaves what `f` reads at every index. -/
theorem getElem?_bind_set_of_eq {f : α → Option β} {l : List α} {i : Nat} {a b : α}
    (hb : l[i]? = some b) (hab : f a = f b) (j : Nat) : (l.set i a)[j]?.bind f = l[j]?.bind f := by
  obtain ⟨hi, -⟩ := List.getElem?_eq_some_iff.mp hb
  rw [getElem?_bind_set hi]
  split_ifs with hij
  · subst hij
    rw [hb, hab]
    rfl
  · rfl

/-- Replacing an element by one `p` holds of alike leaves the count of `p`. -/
theorem countP_set_of_eq {p : α → Bool} {l : List α} {i : Nat} {a b : α} (hb : l[i]? = some b)
    (hab : p a = p b) : (l.set i a).countP p = l.countP p := by
  obtain ⟨hi, hget⟩ := List.getElem?_eq_some_iff.mp hb
  rw [List.countP_set hi, hget, hab]
  split_ifs with hpb
  · have : 0 < l.countP p := List.countP_pos_iff.mpr ⟨b, List.mem_of_getElem? hb, hpb⟩
    omega
  · rfl

end Slots

/-- An array each of whose slots holds what one of `ps` wrote there, the writers' slots distinct
and as many as the slots, is a permutation of the values written. -/
theorem perm_of_slots (l : List α) (ps : List (Nat × α)) (hlen : ps.length = l.length)
    (hnodup : (ps.map Prod.fst).Nodup) (hget : ∀ p ∈ ps, l[p.1]? = some p.2) :
    l.Perm (ps.map Prod.snd) := by
  have hsub : ps.map Prod.fst ⊆ List.range l.length := fun i hi => by
    obtain ⟨p, hp, rfl⟩ := List.mem_map.mp hi
    obtain ⟨hlt, -⟩ := List.getElem?_eq_some_iff.mp (hget p hp)
    exact List.mem_range.mpr hlt
  have hperm : (ps.map Prod.fst).Perm (List.range l.length) :=
    (List.subperm_of_subset hnodup hsub).perm_of_length_le (by simp [hlen])
  have hps : (ps.map Prod.snd).map some = (ps.map Prod.fst).map (l[·]?) := by
    simp only [List.map_map]
    exact List.map_congr_left fun p hp => (hget p hp).symm
  have hl : l.map some = (List.range l.length).map (l[·]?) :=
    List.ext_getElem (by simp) fun i h1 h2 => by simp
  rw [← List.map_perm_map_iff (Option.some_injective α), hl, hps]
  exact (hperm.map _).symm

end Lci.Ring
