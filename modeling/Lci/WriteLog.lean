import Mathlib

/-! Logs of key-value writes. `lastWrite key l` is the value the last write of `key` in `l` left,
and `assign l k v` is what `map[k] = v` does to a map kept as an association list. Over a log
that carries markers (barriers, fences), `takeThrough p l k` is the prefix of `l` through its
`k`-th element satisfying `p`, all of `l` if it has fewer: what is appended after the `k`-th
marker never changes it (`takeThrough_append_of_le`), and one more marker extends it by exactly
what came before that marker (`takeThrough_append_marker`). -/

namespace Lci.WriteLog

variable {α K V : Type} [DecidableEq K]

/-- The value the last write of `key` in the log left; `none` if the log never writes it. -/
def lastWrite (key : K) : List (K × V) → Option V
  | [] => none
  | (k, v) :: l => (lastWrite key l).or (if k = key then some v else none)

@[simp] theorem lastWrite_nil (key : K) : lastWrite key ([] : List (K × V)) = none := rfl

@[simp] theorem lastWrite_cons (key k : K) (v : V) (l : List (K × V)) :
    lastWrite key ((k, v) :: l) = (lastWrite key l).or (if k = key then some v else none) := rfl

theorem lastWrite_append (key : K) (l l' : List (K × V)) :
    lastWrite key (l ++ l') = (lastWrite key l').or (lastWrite key l) := by
  induction l with
  | nil => simp
  | cons e l ih =>
    obtain ⟨k, v⟩ := e
    rw [List.cons_append, lastWrite_cons, ih, lastWrite_cons, Option.or_assoc]

theorem lastWrite_filter_ne (key k : K) (l : List (K × V)) :
    lastWrite key (l.filter fun e => e.1 ≠ k) = if k = key then none else lastWrite key l := by
  induction l with
  | nil => simp
  | cons e l ih =>
    obtain ⟨k', v⟩ := e
    by_cases hk : k' = k
    · subst hk
      rw [List.filter_cons_of_neg (by simp), ih, lastWrite_cons]
      split_ifs <;> simp_all
    · rw [List.filter_cons_of_pos (by simpa using hk), lastWrite_cons, ih, lastWrite_cons]
      split_ifs <;> simp_all

/-- `map[k] = v` on a map kept as an association list with one entry per key. -/
def assign (l : List (K × V)) (k : K) (v : V) : List (K × V) :=
  (l.filter fun e => e.1 ≠ k) ++ [(k, v)]

@[simp] theorem lastWrite_assign (key k : K) (v : V) (l : List (K × V)) :
    lastWrite key (assign l k v) = if k = key then some v else lastWrite key l := by
  rw [assign, lastWrite_append, lastWrite_filter_ne, lastWrite_cons, lastWrite_nil]
  split_ifs <;> simp

section Markers

variable (p : α → Bool)

/-- The prefix of `l` through its `k`-th element satisfying `p`; all of `l` if it has fewer. -/
def takeThrough : List α → Nat → List α
  | [], _ => []
  | _, 0 => []
  | a :: l, k + 1 => a :: takeThrough l (if p a then k else k + 1)

@[simp] theorem takeThrough_zero (l : List α) : takeThrough p l 0 = [] := by
  cases l <;> rfl

@[simp] theorem takeThrough_nil (k : Nat) : takeThrough p [] k = [] := by
  cases k <;> rfl

theorem takeThrough_cons_succ (a : α) (l : List α) (k : Nat) :
    takeThrough p (a :: l) (k + 1) = a :: takeThrough p l (if p a then k else k + 1) := rfl

/-- What is appended after the `k`-th marker does not change the prefix through it. -/
theorem takeThrough_append_of_le {l : List α} {k : Nat} (hk : k ≤ l.countP p) (l' : List α) :
    takeThrough p (l ++ l') k = takeThrough p l k := by
  induction l generalizing k with
  | nil =>
    rw [List.countP_nil, Nat.le_zero] at hk
    subst hk
    simp
  | cons a l ih =>
    cases k with
    | zero => simp
    | succ k =>
      rw [List.cons_append, takeThrough_cons_succ, takeThrough_cons_succ, ih]
      rw [List.countP_cons] at hk
      split_ifs at hk ⊢ <;> omega

/-- One more marker extends the prefix by what came before it. -/
theorem takeThrough_append_marker (l : List α) {x : α} (hx : p x = true) (l' : List α) :
    takeThrough p (l ++ x :: l') (l.countP p + 1) = l ++ [x] := by
  induction l with
  | nil => simp [takeThrough_cons_succ, hx]
  | cons a l ih =>
    rw [List.countP_cons, List.cons_append, List.cons_append]
    by_cases ha : p a = true
    · rw [if_pos ha, show l.countP p + 1 + 1 = (l.countP p + 1) + 1 from rfl,
        takeThrough_cons_succ, if_pos ha, ih]
    · rw [if_neg ha, Nat.add_zero, takeThrough_cons_succ, if_neg ha, ih]

/-- Elements that are not markers pass into the prefix whole. -/
theorem takeThrough_append_of_not {l : List α} (hl : ∀ a ∈ l, p a = false) (l' : List α)
    (k : Nat) : takeThrough p (l ++ l') (k + 1) = l ++ takeThrough p l' (k + 1) := by
  induction l with
  | nil => rfl
  | cons a l ih =>
    rw [List.cons_append, takeThrough_cons_succ, if_neg (by simp [hl a (by simp)]),
      ih fun b hb => hl b (List.mem_cons_of_mem a hb), List.cons_append]

end Markers

end Lci.WriteLog
