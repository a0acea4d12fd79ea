import Lci.MatchingSpec

/-! `queue_t` of the hashed matching engine (`matching_engine_map.hpp`). A queue keeps the values
of one key and one kind. A short queue stores them in two inline slots; the third push turns the
slots into a linked list of nodes of seven values each, and a pop that leaves at most two values
in the last node turns it back into slots. Pops empty the first non-empty entry and leave a hole;
a push writes after the last non-empty entry of the tail node, or opens a new node when that
node's last entry is taken; a head node left with no value is deleted. A pointer is a value of
`α`, the null pointer `VALUE_EMPTY` is `none`.

The queue is read through `Queue.view`: nothing for an empty queue, else its kind and its values
in array order. The three operations are shown to act on the view as a FIFO (`pop_view`,
`push_view`, `setup_view`) and to keep the storage well formed (`Queue.WF`): two slots, or a
non-empty list of seven-value nodes each holding a value, with at least one value stored. -/

namespace Lci.MatchingMap

open Matching

/-- `LCI_CACHE_LINE`, as configured by default in `CMakeLists.txt`. -/
def LCI_CACHE_LINE : Nat := 64

/-- `NODE_NUM_VALUES`: the 8-byte values of a cache-line node after its `next` pointer. -/
def NODE_NUM_VALUES : Nat := (LCI_CACHE_LINE - 8) / 8

def SLOT_NUM_VALUES : Nat := 2

theorem NODE_NUM_VALUES_eq : NODE_NUM_VALUES = 7 := rfl

variable {α : Type}

/-- The storage of a queue: the union of `slots` and `list` in `queue_t`, which `is_queue`
tells apart. A list is given by its nodes from `head` to `tail`, each by its `values` array. -/
inductive Storage (α : Type)
  | slots (slots : List (Option α))
  | list (nodes : List (List (Option α)))
  deriving DecidableEq, Repr

structure Queue (α : Type) where
  is_empty : Bool
  type : InsertType
  key : UInt64
  storage : Storage α
  deriving DecidableEq, Repr

/-- `queue_t()`: empty, in slot form, both slots empty. The constructor leaves `type` and `key`
unset; no code reads them while `is_empty` holds. -/
def Queue.init : Queue α :=
  ⟨true, .send, 0, .slots (List.replicate SLOT_NUM_VALUES none)⟩

/-- The scan of `pop` over an array of values: the first non-empty entry is taken and emptied,
the non-empty entries after it are counted (`nlefts`, or `is_current_queue_nonempty`). -/
def takeFirst : List (Option α) → Option α × Nat × List (Option α)
  | [] => (none, 0, [])
  | none :: vs => ((takeFirst vs).1, (takeFirst vs).2.1, none :: (takeFirst vs).2.2)
  | some v :: vs => (some v, vs.countP Option.isSome, none :: vs)

/-- The conversion of the last node back to slots in `pop`: its values in order, then empty
slots. -/
def compact (values : List (Option α)) : List (Option α) :=
  values.filter Option.isSome ++
    List.replicate (SLOT_NUM_VALUES - (values.filter Option.isSome).length) none

/-- The slot loop of `push`: the value goes to the first empty slot. -/
def fillFirst : List (Option α) → α → List (Option α)
  | [], _ => []
  | none :: vs, value => some value :: vs
  | some v :: vs, value => some v :: fillFirst vs value

/-- `empty_slot` in `push`: the scan from the last entry backwards stops at the last non-empty
entry, so the value goes where the trailing run of empty entries starts. -/
def emptySlot (values : List (Option α)) : Nat :=
  values.length - (values.reverse.takeWhile Option.isNone).length

/-- `queue_t::pop`. A list-form queue without nodes dereferences a null `head`; it does not
occur on a non-empty queue (`Queue.WF`), and the model leaves the queue as it is there. -/
def Queue.pop (q : Queue α) : Option α × Queue α :=
  match q.storage with
  | .slots s =>
      ((takeFirst s).1,
        { q with is_empty := q.is_empty || (takeFirst s).2.1 == 0,
                 storage := .slots (takeFirst s).2.2 })
  | .list [] => (none, q)
  | .list (head :: rest) =>
      if (takeFirst head).2.1 = 0 then
        -- the head node is deleted; the queue is empty when it was the last node
        ((takeFirst head).1, { q with is_empty := q.is_empty || rest.isEmpty, storage := .list rest })
      else if (takeFirst head).2.1 ≤ SLOT_NUM_VALUES ∧ rest = [] then
        ((takeFirst head).1, { q with storage := .slots (compact (takeFirst head).2.2) })
      else ((takeFirst head).1, { q with storage := .list ((takeFirst head).2.2 :: rest) })

/-- `queue_t::push`. A list-form queue without nodes dereferences a null `tail`; as for `pop`,
the model leaves it unchanged. -/
def Queue.push (q : Queue α) (value : α) : Queue α :=
  match q.storage with
  | .slots s =>
      if (s.getD (SLOT_NUM_VALUES - 1) none).isSome then
        -- a fresh node takes the two slots and the value after them
        { q with storage := .list [s ++ some value ::
            List.replicate (NODE_NUM_VALUES - SLOT_NUM_VALUES - 1) none] }
      else { q with storage := .slots (fillFirst s value) }
  | .list nodes =>
      match nodes.getLast? with
      | none => q
      | some tail =>
          if (tail.getD (NODE_NUM_VALUES - 1) none).isSome then
            { q with storage := .list (nodes ++
                [some value :: List.replicate (NODE_NUM_VALUES - 1) none]) }
          else
            { q with storage := .list (nodes.dropLast ++ [tail.set (emptySlot tail) (some value)]) }

/-- `queue_t::setup`: an empty queue becomes the queue of `key` and `type` holding `value`. -/
def Queue.setup (q : Queue α) (key : UInt64) (type : InsertType) (value : α) : Queue α :=
  { q with is_empty := false, key := key, type := type,
           storage := .slots (some value :: List.replicate (SLOT_NUM_VALUES - 1) none) }

/-- The values stored, in array order. -/
def Storage.values : Storage α → List α
  | .slots s => s.reduceOption
  | .list nodes => (nodes.map List.reduceOption).flatten

/-- Well-formed storage: two slots, or a non-empty list of full-size nodes each holding a value;
at least one value is stored. -/
def Storage.WF : Storage α → Prop
  | .slots s => s.length = SLOT_NUM_VALUES ∧ s.reduceOption ≠ []
  | .list nodes => nodes ≠ [] ∧ ∀ n ∈ nodes, n.length = NODE_NUM_VALUES ∧ n.reduceOption ≠ []

/-- A non-empty queue has well-formed storage; an empty one may hold anything, since `setup`
overwrites it. -/
def Queue.WF (q : Queue α) : Prop := q.is_empty = false → q.storage.WF

/-- What a queue holds for the abstract engine: nothing when it is empty, else its kind and
its values. -/
def Queue.view (q : Queue α) : Option (Waiting α) :=
  if q.is_empty then none else Waiting.ofRest q.type q.storage.values

/-! ### The array scans -/

@[simp] theorem takeFirst_length (vs : List (Option α)) : (takeFirst vs).2.2.length = vs.length := by
  induction vs with
  | nil => rfl
  | cons v vs ih => cases v <;> simp [takeFirst, ih]

theorem takeFirst_fst (vs : List (Option α)) : (takeFirst vs).1 = vs.reduceOption.head? := by
  induction vs with
  | nil => rfl
  | cons v vs ih => cases v <;> simp [takeFirst, ih]

theorem takeFirst_values (vs : List (Option α)) :
    (takeFirst vs).2.2.reduceOption = vs.reduceOption.tail := by
  induction vs with
  | nil => rfl
  | cons v vs ih => cases v <;> simp [takeFirst, ih]

theorem takeFirst_count (vs : List (Option α)) :
    (takeFirst vs).2.1 = (takeFirst vs).2.2.reduceOption.length := by
  induction vs with
  | nil => rfl
  | cons v vs ih =>
      cases v with
      | none => simpa [takeFirst] using ih
      | some v =>
          simp only [takeFirst, List.reduceOption_cons_of_none]
          rw [List.countP_eq_length_filter, List.reduceOption_length_eq]

theorem compact_values (vs : List (Option α)) : (compact vs).reduceOption = vs.reduceOption := by
  induction vs with
  | nil => rfl
  | cons v vs ih =>
      cases v <;> simp_all [compact, List.reduceOption_append]

theorem compact_length {vs : List (Option α)} (h : vs.reduceOption.length ≤ SLOT_NUM_VALUES) :
    (compact vs).length = SLOT_NUM_VALUES := by
  rw [List.reduceOption_length_eq] at h
  simp only [compact, List.length_append, List.length_replicate]
  omega

/-- A value written to the second of two slots after an empty one, or to the first, comes last. -/
theorem fillFirst_values (x : Option α) (value : α) :
    (fillFirst [x, none] value).reduceOption = [x, none].reduceOption ++ [value] := by
  cases x <;> rfl

theorem fillFirst_length (vs : List (Option α)) (value : α) :
    (fillFirst vs value).length = vs.length := by
  induction vs with
  | nil => rfl
  | cons v vs ih => cases v <;> simp [fillFirst, ih]

/-- An array whose last entry is empty splits into its entries up to the last value and a
non-empty run of empty entries, and `emptySlot` is where the run starts. -/
theorem emptySlot_split {vs : List (Option α)} (hlast : vs.getLast? = some none) :
    ∃ pre n, vs = pre ++ List.replicate (n + 1) none ∧ emptySlot vs = pre.length := by
  have hrun : (vs.reverse.takeWhile Option.isNone).reverse =
      List.replicate (vs.reverse.takeWhile Option.isNone).length none := by
    rw [List.eq_replicate_iff]
    refine ⟨by simp, fun x hx => ?_⟩
    simpa using List.mem_takeWhile_imp (List.mem_reverse.mp hx)
  have hvs : vs = (vs.reverse.dropWhile Option.isNone).reverse ++
      List.replicate (vs.reverse.takeWhile Option.isNone).length none := by
    conv_lhs => rw [← List.reverse_reverse vs,
      ← List.takeWhile_append_dropWhile (p := Option.isNone) (l := vs.reverse)]
    rw [List.reverse_append, hrun]
  obtain ⟨n, hn⟩ : ∃ n, (vs.reverse.takeWhile Option.isNone).length = n + 1 := by
    rw [List.getLast?_eq_head?_reverse] at hlast
    cases hr : vs.reverse with
    | nil => simp [hr] at hlast
    | cons x xs =>
        rw [hr, List.head?_cons, Option.some.injEq] at hlast
        subst hlast
        exact ⟨(xs.takeWhile Option.isNone).length, by simp⟩
  have hlen := congrArg List.length hvs
  simp only [List.length_append, List.length_replicate] at hlen
  refine ⟨(vs.reverse.dropWhile Option.isNone).reverse, n, ?_, ?_⟩
  · rw [← hn]
    exact hvs
  · unfold emptySlot
    omega

/-- A push into a tail node whose last entry is empty puts the value after every value of the
node. -/
theorem set_emptySlot_values {vs : List (Option α)} (hlast : vs.getLast? = some none) (value : α) :
    (vs.set (emptySlot vs) (some value)).reduceOption = vs.reduceOption ++ [value] := by
  obtain ⟨pre, n, rfl, hslot⟩ := emptySlot_split hlast
  rw [hslot, List.set_append_right _ _ (Nat.le_refl _), Nat.sub_self]
  simp [List.reduceOption_append, List.replicate_succ]

/-- The three results of `takeFirst` on an array whose values are `v :: rest`. -/
theorem takeFirst_of_values {vs : List (Option α)} {v : α} {rest : List α}
    (h : vs.reduceOption = v :: rest) :
    (takeFirst vs).1 = some v ∧ (takeFirst vs).2.2.reduceOption = rest ∧
      (takeFirst vs).2.1 = rest.length := by
  refine ⟨by rw [takeFirst_fst, h]; rfl, by rw [takeFirst_values, h]; rfl, ?_⟩
  rw [takeFirst_count, takeFirst_values, h]
  rfl

/-! ### The queue operations on the view -/

@[simp] theorem Queue.pop_key (q : Queue α) : q.pop.2.key = q.key := by
  unfold Queue.pop
  split
  · rfl
  · rfl
  · split
    · rfl
    · split <;> rfl

@[simp] theorem Queue.push_key (q : Queue α) (value : α) : (q.push value).key = q.key := by
  unfold Queue.push
  split
  · split <;> rfl
  · split
    · rfl
    · split <;> rfl

@[simp] theorem Queue.push_type (q : Queue α) (value : α) : (q.push value).type = q.type := by
  unfold Queue.push
  split
  · split <;> rfl
  · split
    · rfl
    · split <;> rfl

@[simp] theorem Queue.push_is_empty (q : Queue α) (value : α) :
    (q.push value).is_empty = q.is_empty := by
  unfold Queue.push
  split
  · split <;> rfl
  · split
    · rfl
    · split <;> rfl

theorem Queue.view_eq_some {q : Queue α} {w : Waiting α} (h : q.view = some w) :
    q.is_empty = false ∧ q.type = w.type ∧ q.storage.values = w.first :: w.rest := by
  unfold Queue.view at h
  cases he : q.is_empty
  · rw [he, if_neg Bool.false_ne_true] at h
    cases hv : q.storage.values with
    | nil => rw [hv] at h; cases h
    | cons v vs =>
        rw [hv] at h
        cases h
        exact ⟨rfl, rfl, rfl⟩
  · rw [he, if_pos rfl] at h
    cases h

theorem Queue.view_of_values {q : Queue α} (he : q.is_empty = false) :
    q.view = Waiting.ofRest q.type q.storage.values := by
  rw [Queue.view, he, if_neg Bool.false_ne_true]

/-- **`pop` takes the oldest value.** On a non-empty well-formed queue, `pop` returns the first
value and leaves the rest, and the queue is empty exactly when no value is left. -/
theorem Queue.pop_view {q : Queue α} {w : Waiting α} (hwf : q.WF) (hv : q.view = some w) :
    q.pop.1 = some w.first ∧ q.pop.2.view = Waiting.ofRest w.type w.rest ∧ q.pop.2.WF := by
  obtain ⟨he, htype, hvals⟩ := Queue.view_eq_some hv
  have hst := hwf he
  cases hq : q.storage with
  | slots s =>
      rw [hq] at hst hvals
      obtain ⟨hlen, -⟩ := hst
      obtain ⟨hfst, hrest, hcount⟩ := takeFirst_of_values hvals
      simp only [Queue.pop, hq, hfst, hcount, he, Bool.false_or, true_and]
      cases hr : w.rest with
      | nil =>
          refine ⟨?_, fun h => by cases h⟩
          simp [Queue.view, Waiting.ofRest]
      | cons v vs =>
          have hne : (v :: vs).length ≠ 0 := by simp
          have hfalse : ((v :: vs).length == 0) = false := by simp
          refine ⟨?_, fun _ => ⟨by rw [takeFirst_length, hlen], by rw [hrest, hr]; simp⟩⟩
          rw [Queue.view_of_values (by simp)]
          simp only [Storage.values, hrest, hr, htype]
  | list nodes =>
      rw [hq] at hst hvals
      obtain ⟨hne, hnodes⟩ := hst
      cases nodes with
      | nil => exact absurd rfl hne
      | cons head rest =>
          obtain ⟨hhlen, hhne⟩ := hnodes head (List.mem_cons_self ..)
          simp only [Storage.values, List.map_cons, List.flatten_cons] at hvals
          obtain ⟨v, vs, hhead⟩ := List.exists_cons_of_ne_nil hhne
          rw [hhead, List.cons_append, List.cons.injEq] at hvals
          obtain ⟨rfl, hwrest⟩ := hvals
          obtain ⟨hfst, hrest, hcount⟩ := takeFirst_of_values hhead
          have hrest_wf : ∀ n ∈ rest, n.length = NODE_NUM_VALUES ∧ n.reduceOption ≠ [] :=
            fun n hn => hnodes n (List.mem_cons_of_mem _ hn)
          simp only [Queue.pop, hq]
          split_ifs with h0 h1
          · -- the head node is used up and deleted
            have hvs : vs = [] := List.eq_nil_of_length_eq_zero (hcount ▸ h0)
            subst hvs
            refine ⟨hfst, ?_, fun he' => ?_⟩
            · cases rest with
              | nil => simp [Queue.view, ← hwrest, Waiting.ofRest]
              | cons r rs =>
                  rw [Queue.view_of_values (by simp [he])]
                  simp only [Storage.values, ← hwrest, List.nil_append, htype]
            · cases rest with
              | nil => simp [he] at he'
              | cons r rs => exact ⟨List.cons_ne_nil _ _, hrest_wf⟩
          · -- at most two values are left in the last node: back to slots
            obtain ⟨hle, rfl⟩ := h1
            have hvs : vs ≠ [] := fun h => h0 (by rw [hcount, h]; rfl)
            refine ⟨hfst, ?_, fun _ => ⟨compact_length (by rw [hrest]; omega), ?_⟩⟩
            · rw [Queue.view_of_values (by exact he)]
              simp only [Storage.values, compact_values, hrest, htype, ← hwrest]
              simp
            · rw [compact_values, hrest]
              exact hvs
          · have hvs : vs ≠ [] := fun h => h0 (by rw [hcount, h]; rfl)
            refine ⟨hfst, ?_, fun _ => ⟨List.cons_ne_nil _ _, ?_⟩⟩
            · rw [Queue.view_of_values (by exact he)]
              simp only [Storage.values, List.map_cons, List.flatten_cons, hrest, htype, hwrest]
            · intro n hn
              rcases List.mem_cons.mp hn with rfl | hn
              · exact ⟨by rw [takeFirst_length, hhlen], by rw [hrest]; exact hvs⟩
              · exact hrest_wf n hn

theorem Storage.values_list_concat (nodes : List (List (Option α))) (node : List (Option α)) :
    (Storage.list (nodes ++ [node])).values = (Storage.list nodes).values ++ node.reduceOption := by
  simp [Storage.values]

/-- `push` on well-formed storage: the value comes after every stored value. -/
theorem Queue.push_storage {q : Queue α} (hst : q.storage.WF) (value : α) :
    (q.push value).storage.values = q.storage.values ++ [value] ∧ (q.push value).storage.WF := by
  cases hq : q.storage with
  | slots s =>
      rw [hq] at hst
      obtain ⟨x, y, rfl⟩ := List.length_eq_two.mp hst.1
      cases y with
      | some y =>
          simp only [Queue.push, hq, SLOT_NUM_VALUES, NODE_NUM_VALUES_eq]
          refine ⟨by cases x <;> simp [Storage.values], ?_⟩
          refine ⟨List.cons_ne_nil _ _, fun n hn => ?_⟩
          rw [List.mem_singleton.mp hn]
          exact ⟨by simp [NODE_NUM_VALUES_eq], by cases x <;> simp⟩
      | none =>
          simp only [Queue.push, hq, SLOT_NUM_VALUES]
          refine ⟨fillFirst_values x value, ?_, ?_⟩
          · exact fillFirst_length _ _
          · rw [fillFirst_values]
            simp
  | list nodes =>
      rw [hq] at hst
      obtain ⟨hne, hnodes⟩ := hst
      obtain ⟨init, tail, rfl⟩ := (List.eq_nil_or_concat nodes).resolve_left hne
      simp only [List.concat_eq_append] at hnodes hq ⊢
      obtain ⟨htlen, -⟩ := hnodes tail (by simp)
      have hinit : ∀ n ∈ init, n.length = NODE_NUM_VALUES ∧ n.reduceOption ≠ [] :=
        fun n hn => hnodes n (List.mem_append_left _ hn)
      have hlast0 : (init ++ [tail]).getLast? = some tail := by simp
      simp only [Queue.push, hq, hlast0]
      split_ifs with hfull
      · -- the tail node is full: the value opens a new node
        refine ⟨by rw [Storage.values_list_concat]; simp, List.append_ne_nil_of_right_ne_nil _
          (List.cons_ne_nil _ _), fun n hn => ?_⟩
        rcases List.mem_append.mp hn with hn | hn
        · exact hnodes n hn
        · rw [List.mem_singleton.mp hn]
          exact ⟨by simp [NODE_NUM_VALUES_eq], by simp⟩
      · -- the value goes after the last value of the tail node
        have hlast : tail.getLast? = some none := by
          rw [List.getLast?_eq_getElem?, htlen, NODE_NUM_VALUES_eq]
          rw [List.getD_eq_getElem?_getD, NODE_NUM_VALUES_eq] at hfull
          have h6 : 6 < tail.length := by rw [htlen, NODE_NUM_VALUES_eq]; omega
          rw [List.getElem?_eq_getElem h6] at hfull ⊢
          simpa using hfull
        simp only [List.dropLast_concat]
        refine ⟨by rw [Storage.values_list_concat, Storage.values_list_concat,
          set_emptySlot_values hlast, List.append_assoc], List.append_ne_nil_of_right_ne_nil _
          (List.cons_ne_nil _ _), fun n hn => ?_⟩
        rcases List.mem_append.mp hn with hn | hn
        · exact hinit n hn
        · rw [List.mem_singleton.mp hn, List.length_set, set_emptySlot_values hlast]
          exact ⟨htlen, by simp⟩

/-- **`push` appends.** On a non-empty well-formed queue, `push` puts the value after every
value of the queue and keeps the storage well formed. -/
theorem Queue.push_view {q : Queue α} {w : Waiting α} (hwf : q.WF) (hv : q.view = some w)
    (value : α) :
    (q.push value).view = some { w with rest := w.rest ++ [value] } ∧ (q.push value).WF := by
  obtain ⟨he, htype, hvals⟩ := Queue.view_eq_some hv
  obtain ⟨hpush, hwf'⟩ := Queue.push_storage (hwf he) value
  refine ⟨?_, fun _ => hwf'⟩
  rw [Queue.view_of_values (by rw [Queue.push_is_empty]; exact he), hpush, hvals]
  simp only [List.cons_append, Waiting.ofRest, Queue.push_type, htype]

@[simp] theorem Queue.setup_key (q : Queue α) (key : UInt64) (type : InsertType) (value : α) :
    (q.setup key type value).key = key := rfl

@[simp] theorem Queue.setup_is_empty (q : Queue α) (key : UInt64) (type : InsertType)
    (value : α) : (q.setup key type value).is_empty = false := rfl

/-- `setup` makes an empty queue the queue of its key holding one value. -/
theorem Queue.setup_view (q : Queue α) (key : UInt64) (type : InsertType) (value : α) :
    (q.setup key type value).view = some ⟨type, value, []⟩ ∧ (q.setup key type value).WF ∧
      (q.setup key type value).key = key := by
  refine ⟨by simp [Queue.view, Queue.setup, Storage.values, SLOT_NUM_VALUES, Waiting.ofRest],
    fun _ => ⟨by simp [SLOT_NUM_VALUES], by simp⟩, rfl⟩

end Lci.MatchingMap
