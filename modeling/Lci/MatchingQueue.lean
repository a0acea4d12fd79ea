import Lci.MatchingMapRefinement

/-! The second matching engine, `matching_engine_queue_t`: one list of unexpected sends and one of
posted receives, each in arrival order. An insert searches the list of the other kind for the first
entry of its key; a match is erased and its value returned, otherwise the new entry is appended to
the list of its own kind. The view of a key is the values of its entries in the list that holds
any, oldest first. Under the invariant that no key has entries in both lists the engine refines the
abstract engine of `Lci.Matching.Spec`, and since the hashed engine refines it too, the two engines
answer alike on every request sequence (`engines_agree`). -/

namespace Lci.MatchingQueue

open Matching Machine

variable {α : Type}

/-- `matching_engine_queue_t::entry_t`. -/
structure Entry (α : Type) where
  key : UInt64
  value : α

/-- `matching_engine_queue_t`: the unexpected sends and the posted receives. -/
structure QueueEngine (α : Type) where
  send_queue : List (Entry α)
  recv_queue : List (Entry α)

/-- A fresh engine: both lists empty. -/
def QueueEngine.init : QueueEngine α := ⟨[], []⟩

/-- `matching_engine_queue_t::search`: erase the first entry of `key` and return its value. The
source reads the value through the iterator it has just erased; the erased entry's value is the
one meant. -/
def search : List (Entry α) → UInt64 → Option α × List (Entry α)
  | [], _ => (none, [])
  | e :: es, key =>
      if e.key == key then (some e.value, es) else ((search es key).1, e :: (search es key).2)

def QueueEngine.insert (e : QueueEngine α) (key : UInt64) (value : α) (type : InsertType) :
    Option α × QueueEngine α :=
  match type with
  | .send =>
      -- search the posted receives; without a match the send waits
      let r := search e.recv_queue key
      match r.1 with
      | some v => (some v, { e with recv_queue := r.2 })
      | none => (none, { e with recv_queue := r.2, send_queue := e.send_queue ++ [⟨key, value⟩] })
  | .recv =>
      -- search the unexpected sends; without a match the receive waits
      let r := search e.send_queue key
      match r.1 with
      | some v => (some v, { e with send_queue := r.2 })
      | none => (none, { e with send_queue := r.2, recv_queue := e.recv_queue ++ [⟨key, value⟩] })

/-- The engine as a machine over `(key, value, type)` requests. -/
def QueueEngine.step (e : QueueEngine α) (r : UInt64 × α × InsertType) :
    Option α × QueueEngine α :=
  e.insert r.1 r.2.1 r.2.2

/-! ### Both branches as one

The two branches of `insert` differ only in which list is searched and which one grows. -/

/-- The list of entries of one kind. -/
def QueueEngine.queue (e : QueueEngine α) : InsertType → List (Entry α)
  | .send => e.send_queue
  | .recv => e.recv_queue

/-- The engine with the list of one kind replaced. -/
def QueueEngine.setQueue (e : QueueEngine α) : InsertType → List (Entry α) → QueueEngine α
  | .send, q => { e with send_queue := q }
  | .recv, q => { e with recv_queue := q }

theorem InsertType.eq_or_eq_opposite (t type : InsertType) : t = type ∨ t = type.opposite := by
  cases t <;> cases type <;> simp [InsertType.opposite]

@[simp] theorem QueueEngine.queue_setQueue_self (e : QueueEngine α) (t : InsertType)
    (q : List (Entry α)) : (e.setQueue t q).queue t = q := by
  cases t <;> rfl

@[simp] theorem QueueEngine.queue_setQueue_opposite (e : QueueEngine α) (t : InsertType)
    (q : List (Entry α)) : (e.setQueue t q).queue t.opposite = e.queue t.opposite := by
  cases t <;> rfl

@[simp] theorem QueueEngine.queue_setQueue_of_opposite (e : QueueEngine α) (t : InsertType)
    (q : List (Entry α)) : (e.setQueue t.opposite q).queue t = e.queue t := by
  cases t <;> rfl

theorem QueueEngine.insert_eq (e : QueueEngine α) (key : UInt64) (value : α)
    (type : InsertType) :
    e.insert key value type =
      match (search (e.queue type.opposite) key).1 with
      | some v => (some v, e.setQueue type.opposite (search (e.queue type.opposite) key).2)
      | none => (none, (e.setQueue type.opposite (search (e.queue type.opposite) key).2).setQueue
          type (e.queue type ++ [⟨key, value⟩])) := by
  cases type <;> rfl

/-! ### The values of a key -/

/-- The values of the entries of `k` in a list, oldest first. -/
def vals (q : List (Entry α)) (k : UInt64) : List α :=
  (q.filter fun x => x.key == k).map Entry.value

@[simp] theorem vals_nil (k : UInt64) : vals ([] : List (Entry α)) k = [] := rfl

theorem vals_cons (x : Entry α) (q : List (Entry α)) (k : UInt64) :
    vals (x :: q) k = if x.key = k then x.value :: vals q k else vals q k := by
  by_cases h : x.key = k <;> simp [vals, h]

theorem vals_append (q r : List (Entry α)) (k : UInt64) : vals (q ++ r) k = vals q k ++ vals r k := by
  simp [vals]

theorem vals_singleton (key k : UInt64) (value : α) :
    vals [⟨key, value⟩] k = if k = key then [value] else [] := by
  by_cases h : k = key
  · simp [vals_cons, h]
  · simp [vals_cons, h, Ne.symm h]

/-- `search` answers the oldest value of its key. -/
theorem search_fst (q : List (Entry α)) (key : UInt64) : (search q key).1 = (vals q key).head? := by
  induction q with
  | nil => rfl
  | cons x q ih =>
      by_cases h : x.key = key
      · simp [search, vals_cons, h]
      · simp [search, vals_cons, h, ih]

/-- `search` removes the oldest value of its key and leaves the other keys alone. -/
theorem search_vals (q : List (Entry α)) (key k : UInt64) :
    vals (search q key).2 k = if k = key then (vals q key).tail else vals q k := by
  induction q with
  | nil => simp [search]
  | cons x q ih =>
      by_cases h : x.key = key
      · by_cases hk : k = key
        · subst hk
          simp [search, vals_cons, h]
        · simp [search, vals_cons, h, hk, Ne.symm hk]
      · simp only [search, beq_iff_eq, h, if_false, vals_cons, ih]
        by_cases hk : k = key
        · subst hk
          simp [h]
        · simp [hk]

/-! ### The view and the invariant -/

/-- The abstract state the engine stands for: the entries of each key, of the kind it has. -/
def QueueEngine.view (e : QueueEngine α) : Spec UInt64 α := fun k =>
  match vals e.send_queue k with
  | s :: ss => some ⟨.send, s, ss⟩
  | [] => Waiting.ofRest .recv (vals e.recv_queue k)

/-- No key has entries in both lists. -/
structure QueueInv (e : QueueEngine α) : Prop where
  disjoint : ∀ k, vals e.send_queue k = [] ∨ vals e.recv_queue k = []

theorem QueueInv.opposite {e : QueueEngine α} (hinv : QueueInv e) (t : InsertType) (k : UInt64) :
    vals (e.queue t) k = [] ∨ vals (e.queue t.opposite) k = [] := by
  cases t
  · exact hinv.disjoint k
  · exact (hinv.disjoint k).symm

/-- A key with no entries of the other kind is viewed as its entries of kind `t`. -/
theorem QueueEngine.view_of_opposite_nil {e : QueueEngine α} {k : UInt64} (t : InsertType)
    (h : vals (e.queue t.opposite) k = []) : e.view k = Waiting.ofRest t (vals (e.queue t) k) := by
  cases t with
  | send =>
      simp only [QueueEngine.queue, InsertType.opposite] at h ⊢
      cases hs : vals e.send_queue k <;> simp [QueueEngine.view, hs, h, Waiting.ofRest]
  | recv =>
      simp only [QueueEngine.queue, InsertType.opposite] at h ⊢
      simp [QueueEngine.view, h]

/-- The view of a key depends only on the values of its entries. -/
theorem QueueEngine.view_congr {e e' : QueueEngine α} {k : UInt64}
    (h : ∀ t, vals (e'.queue t) k = vals (e.queue t) k) : e'.view k = e.view k := by
  have hs := h .send
  have hr := h .recv
  simp only [QueueEngine.queue] at hs hr
  simp only [QueueEngine.view, hs, hr]

/-- An engine whose lists of both kinds keep the values of every key but `key`. -/
theorem QueueEngine.view_update {e e' : QueueEngine α} {key : UInt64} {w : Option (Waiting α)}
    (hkey : e'.view key = w) (hother : ∀ k, k ≠ key → ∀ t, vals (e'.queue t) k = vals (e.queue t) k) :
    e'.view = Function.update e.view key w := by
  funext k
  by_cases hk : k = key
  · subst hk
    rw [Function.update_self, hkey]
  · rw [Function.update_of_ne hk]
    exact QueueEngine.view_congr (hother k hk)

theorem QueueInv.of_vals {e e' : QueueEngine α} (hinv : QueueInv e) {key : UInt64}
    (t : InsertType) (hkey : vals (e'.queue t) key = [])
    (hother : ∀ k, k ≠ key → ∀ t, vals (e'.queue t) k = vals (e.queue t) k) : QueueInv e' := by
  refine ⟨fun k => ?_⟩
  by_cases hk : k = key
  · subst hk
    cases t
    · exact Or.inl hkey
    · exact Or.inr hkey
  · have hs := hother k hk .send
    have hr := hother k hk .recv
    simp only [QueueEngine.queue] at hs hr
    rw [hs, hr]
    exact hinv.disjoint k

/-! ### One insert -/

/-- **One `insert` on the queue engine.** Under the invariant it answers as the abstract insert on
the view, keeps the invariant, and moves the view as the abstract insert does. -/
theorem QueueEngine.insert_spec {e : QueueEngine α} (hinv : QueueInv e) (key : UInt64) (value : α)
    (type : InsertType) :
    (e.insert key value type).1 = (e.view.insert key value type).1 ∧
      QueueInv (e.insert key value type).2 ∧
      (e.insert key value type).2.view = (e.view.insert key value type).2 := by
  rw [QueueEngine.insert_eq]
  have hsearch := search_vals (e.queue type.opposite) key
  rcases hv : vals (e.queue type.opposite) key with _ | ⟨v, rs⟩
  · -- nothing to match: the entry waits at the end of its kind's list
    have hfst : (search (e.queue type.opposite) key).1 = none := by rw [search_fst, hv]; rfl
    have hview := QueueEngine.view_of_opposite_nil type hv
    rw [hfst, Spec.insert_of_ofRest hview value]
    have hopp : vals (search (e.queue type.opposite) key).2 key = [] := by simp [hsearch, hv]
    have hnew : ∀ k, vals (e.queue type ++ [⟨key, value⟩]) k =
        vals (e.queue type) k ++ if k = key then [value] else [] := fun k => by
      rw [vals_append, vals_singleton]
    have hother : ∀ k, k ≠ key → ∀ t, vals (((e.setQueue type.opposite
        (search (e.queue type.opposite) key).2).setQueue type
        (e.queue type ++ [⟨key, value⟩])).queue t) k = vals (e.queue t) k := by
      intro k hk t
      rcases InsertType.eq_or_eq_opposite t type with rfl | rfl
      · simp [hnew, hk]
      · simp [hsearch, hk]
    refine ⟨rfl, QueueInv.of_vals hinv type.opposite (by simpa using hopp) hother,
      QueueEngine.view_update ?_ hother⟩
    rw [QueueEngine.view_of_opposite_nil type (by simpa using hopp)]
    simp [hnew]
  · -- the oldest entry of the other kind is matched and erased
    have hfst : (search (e.queue type.opposite) key).1 = some v := by rw [search_fst, hv]; rfl
    have hown : vals (e.queue type) key = [] :=
      (hinv.opposite type key).resolve_right (by rw [hv]; exact List.cons_ne_nil v rs)
    have hview : e.view key = some ⟨type.opposite, v, rs⟩ := by
      rw [QueueEngine.view_of_opposite_nil type.opposite (by simpa using hown), hv]
      rfl
    rw [hfst, Spec.insert_of_other hview value type (InsertType.opposite_ne type)]
    have hother : ∀ k, k ≠ key → ∀ t, vals ((e.setQueue type.opposite
        (search (e.queue type.opposite) key).2).queue t) k = vals (e.queue t) k := by
      intro k hk t
      rcases InsertType.eq_or_eq_opposite t type with rfl | rfl
      · simp
      · simp [hsearch, hk]
    refine ⟨rfl, QueueInv.of_vals hinv type (by simpa using hown) hother,
      QueueEngine.view_update ?_ hother⟩
    rw [QueueEngine.view_of_opposite_nil type.opposite (by simpa using hown)]
    simp [hsearch, hv]

theorem QueueEngine.init_inv : QueueInv (QueueEngine.init : QueueEngine α) :=
  ⟨fun _ => Or.inl rfl⟩

theorem QueueEngine.init_view : (QueueEngine.init : QueueEngine α).view = Spec.empty := by
  funext k
  rfl

/-- The queue engine, under its invariant and read through its view, simulates the abstract
engine. -/
theorem QueueEngine.simulation :
    Simulation (QueueEngine.step (α := α)) Spec.step (fun e m => QueueInv e ∧ e.view = m) := by
  refine Simulation.of_inv fun e m r hinv hview => ?_
  subst hview
  exact QueueEngine.insert_spec hinv r.1 r.2.1 r.2.2

/-- **The two matching engines agree.** On every request sequence the hashed engine and the queue
engine give the same answer at every step. -/
theorem engines_agree (ops : List (UInt64 × α × InsertType)) :
    (run MatchingMap.Table.step MatchingMap.Table.init ops).1 =
      (run QueueEngine.step QueueEngine.init ops).1 :=
  Simulation.run_agree MatchingMap.Table.simulation QueueEngine.simulation
    ⟨MatchingMap.Table.init_inv, MatchingMap.Table.init_view⟩
    ⟨QueueEngine.init_inv, QueueEngine.init_view⟩ ops

end Lci.MatchingQueue
