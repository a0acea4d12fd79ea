import Lci.MatchingMap

/-! The hashed matching engine refines the abstract engine of `Lci.Matching.Spec`. The view of a
key is the view of the first non-empty queue of the key in the chain of its master bucket
(`Table.view`). The invariant `TableInv` says that every queue is well formed, that no chain
holds two non-empty queues of one key, and that a non-empty queue sits in the chain its key
hashes to. Under it one `insert` answers as the abstract insert does on the view and moves the
view as the abstract insert moves the abstract state (`Table.insert_spec`); the search frees only
buckets of empty queues, so it changes neither the view nor the invariant, and the action then
replaces one queue of the chain. `insert_refines_spec` follows for every request sequence. -/

namespace Lci.MatchingMap

open Matching Machine

variable {α : Type}

/-- The view of `key` in a list of queues: the view of its first non-empty queue of `key`. -/
def lookup (key : UInt64) (qs : List (Queue α)) : Option (Waiting α) :=
  (qs.find? (Queue.holds key)).bind Queue.view

/-- The keys of the non-empty queues, in order. -/
def activeKeys (qs : List (Queue α)) : List UInt64 :=
  (qs.filter fun q => !q.is_empty).map Queue.key

/-- The invariant of one chain: well-formed queues and at most one non-empty queue per key. -/
structure ChainInv (c : Chain α) : Prop where
  wf : ∀ q ∈ c.allQueues, q.WF
  nodup : (activeKeys c.allQueues).Nodup

/-! ### Views of a list of queues -/

theorem lookup_filter (key : UInt64) (qs : List (Queue α)) :
    lookup key (qs.filter fun q => !q.is_empty) = lookup key qs := by
  have hp : (fun q : Queue α => decide ((!q.is_empty) = true ∧ q.holds key = true)) =
      Queue.holds key := by
    funext q
    unfold Queue.holds
    cases q.is_empty <;> simp [Bool.beq_eq_decide_eq]
  simp only [lookup, List.find?_filter, hp]

theorem lookup_eq_none {key : UInt64} {qs : List (Queue α)}
    (h : ∀ q ∈ qs, q.holds key = false) : lookup key qs = none := by
  unfold lookup
  rw [List.find?_eq_none.mpr (fun q hq => by simp [h q hq]), Option.bind_none]

/-- The view of `key` in a list whose only candidate queue is `q`. -/
theorem lookup_at {key : UInt64} {pre post : List (Queue α)} {q : Queue α}
    (hpre : ∀ r ∈ pre, r.holds key = false) (hpost : ∀ r ∈ post, r.holds key = false)
    (hq : q.is_empty = false → q.key = key) : lookup key (pre ++ q :: post) = q.view := by
  unfold lookup
  rw [List.find?_append, List.find?_eq_none.mpr (fun r hr => by simp [hpre r hr]),
    Option.none_or, List.find?_cons]
  cases hh : q.holds key
  · -- `q` is not the queue of `key`, so it is empty
    have he : q.is_empty = true := by
      cases he : q.is_empty
      · simp [Queue.holds, he, hq he] at hh
      · rfl
    rw [List.find?_eq_none.mpr (fun r hr => by simp [hpost r hr]), Option.bind_none]
    simp [Queue.view, he]
  · rfl

/-- A queue that is not the queue of `k` can be replaced by another without changing the view
of `k`. -/
theorem lookup_replace {k : UInt64} (pre post : List (Queue α)) {q q' : Queue α}
    (hq : q.holds k = false) (hq' : q'.holds k = false) :
    lookup k (pre ++ q' :: post) = lookup k (pre ++ q :: post) := by
  simp [lookup, List.find?_append, hq, hq']

/-- With one non-empty queue per key, the queue of `key` is the only queue holding `key`. -/
theorem holds_unique {key : UInt64} {pre post : List (Queue α)} {q : Queue α}
    (hnodup : (activeKeys (pre ++ q :: post)).Nodup) (hq : q.holds key = true) :
    ∀ r ∈ pre ++ post, r.holds key = false := by
  have hqe : q.is_empty = false := by simp [Queue.holds] at hq; exact hq.1
  have hqk : q.key = key := by simp [Queue.holds] at hq; exact hq.2
  intro r hr
  by_contra hrh
  have hrh' : r.is_empty = false ∧ r.key = key := by simpa [Queue.holds] using hrh
  simp only [activeKeys, List.filter_append, List.filter_cons, hqe, Bool.not_false,
    ↓reduceIte, List.map_append, List.map_cons] at hnodup
  rw [List.nodup_append, List.nodup_cons] at hnodup
  obtain ⟨hpre, ⟨hnot, -⟩, hdisj⟩ := hnodup
  rcases List.mem_append.mp hr with hr | hr
  · exact hdisj key (List.mem_map.mpr ⟨r, List.mem_filter.mpr ⟨hr, by simp [hrh'.1]⟩, hrh'.2⟩)
      q.key List.mem_cons_self hqk.symm
  · exact hnot (List.mem_map.mpr ⟨r, List.mem_filter.mpr ⟨hr, by simp [hrh'.1]⟩,
      hrh'.2.trans hqk.symm⟩)

theorem activeKeys_replace (pre post : List (Queue α)) {q q' : Queue α}
    (hkey : q'.key = q.key) (he : q.is_empty = false) :
    (activeKeys (pre ++ q' :: post)).Sublist (activeKeys (pre ++ q :: post)) := by
  simp only [activeKeys, List.filter_append, List.filter_cons, he, Bool.not_false, ↓reduceIte,
    List.map_append, List.map_cons]
  apply List.Sublist.append_left
  cases q'.is_empty
  · simp [hkey]
  · exact List.sublist_cons_self _ _

theorem activeKeys_setup (pre post : List (Queue α)) {q : Queue α} (he : q.is_empty = true)
    (key : UInt64) (type : InsertType) (value : α)
    (hnodup : (activeKeys (pre ++ q :: post)).Nodup)
    (hnone : ∀ r ∈ pre ++ q :: post, r.holds key = false) :
    (activeKeys (pre ++ q.setup key type value :: post)).Nodup := by
  simp only [activeKeys, List.filter_append, List.filter_cons, he, Queue.setup_is_empty,
    Bool.not_false, Bool.not_true, Bool.false_eq_true, ↓reduceIte, List.map_append,
    List.map_cons, Queue.setup_key] at hnodup ⊢
  rw [List.nodup_middle, List.nodup_cons]
  refine ⟨fun hmem => ?_, hnodup⟩
  rw [← List.map_append, List.mem_map] at hmem
  obtain ⟨r, hr, hrk⟩ := hmem
  rw [← List.filter_append, List.mem_filter] at hr
  have hr' : r ∈ pre ++ q :: post := by
    rcases List.mem_append.mp hr.1 with h | h
    · exact List.mem_append_left _ h
    · exact List.mem_append_right _ (List.mem_cons_of_mem _ h)
  have hre : r.is_empty = false := by simpa using hr.2
  have := hnone r hr'
  simp [Queue.holds, hre, hrk] at this

/-- One queue of a chain replaced by a queue of `key`: only the view of `key` moves, to the view of
the new queue; the invariant holds again; every non-empty queue is of `key` or was there
before. -/
theorem replace_spec {c c' : Chain α} {m : Spec UInt64 α} {key : UInt64}
    {pre post : List (Queue α)} {q q' : Queue α}
    (hfrom : ∀ r ∈ pre ++ post, r.is_empty = false → r ∈ c.allQueues)
    (hm : ∀ k, m k = lookup k (pre ++ q :: post)) (hwf : ∀ r ∈ pre ++ post, r.WF)
    (hothers : ∀ r ∈ pre ++ post, r.holds key = false) (hq : q.is_empty = false → q.key = key)
    (hall : c'.allQueues = pre ++ q' :: post) (hq' : q'.key = key) (hwf' : q'.WF)
    (hnodup' : (activeKeys (pre ++ q' :: post)).Nodup) :
    (∀ k, lookup k c'.allQueues = Function.update m key q'.view k) ∧ ChainInv c' ∧
      ∀ r ∈ c'.allQueues, r.is_empty = false → r.key = key ∨ r ∈ c.allQueues := by
  have hpre : ∀ r ∈ pre, r.holds key = false := fun r hr => hothers r (List.mem_append_left _ hr)
  have hpost : ∀ r ∈ post, r.holds key = false :=
    fun r hr => hothers r (List.mem_append_right _ hr)
  have hmem : ∀ r ∈ c'.allQueues, r = q' ∨ r ∈ pre ++ post := by
    intro r hr
    rw [hall] at hr
    rcases List.mem_append.mp hr with hr | hr
    · exact Or.inr (List.mem_append_left _ hr)
    · rcases List.mem_cons.mp hr with rfl | hr
      · exact Or.inl rfl
      · exact Or.inr (List.mem_append_right _ hr)
  refine ⟨fun k => ?_, ⟨fun r hr => ?_, hall ▸ hnodup'⟩, fun r hr he => ?_⟩
  · rw [hall]
    by_cases hk : k = key
    · subst hk
      rw [Function.update_self]
      exact lookup_at hpre hpost (fun _ => hq')
    · rw [Function.update_of_ne hk, hm]
      have hqk : q.holds k = false := by
        cases he : q.is_empty
        · simp [Queue.holds, he, hq he, Ne.symm hk]
        · simp [Queue.holds, he]
      exact lookup_replace pre post hqk (by simp [Queue.holds, hq', Ne.symm hk])
  · rcases hmem r hr with rfl | hr
    · exact hwf'
    · exact hwf r hr
  · rcases hmem r hr with rfl | hr
    · exact Or.inl hq'
    · exact Or.inr (hfrom r hr he)

theorem target_type_ne (type : InsertType) :
    (if type = InsertType.send then InsertType.recv else InsertType.send) ≠ type := by
  cases type <;> simp

theorem eq_of_ne_target_type {t type : InsertType}
    (h : t ≠ if type = InsertType.send then InsertType.recv else InsertType.send) : t = type := by
  cases t <;> cases type <;> simp_all

theorem Queue.view_of_nonempty {q : Queue α} (hwf : q.WF) (he : q.is_empty = false) :
    ∃ w : Waiting α, q.view = some w ∧ w.type = q.type := by
  rw [Queue.view_of_values he]
  cases hv : q.storage.values with
  | nil =>
      have hst := hwf he
      cases hq : q.storage with
      | slots s => rw [hq] at hst hv; exact absurd hv hst.2
      | list nodes =>
          rw [hq] at hst hv
          obtain ⟨hne, hnodes⟩ := hst
          obtain ⟨n, ns, rfl⟩ := List.exists_cons_of_ne_nil hne
          have := (hnodes n (List.mem_cons_self ..)).2
          simp [Storage.values] at hv
          exact absurd hv.1 this
  | cons v vs => exact ⟨⟨q.type, v, vs⟩, rfl, rfl⟩

private theorem mem_middle_of_mem {pre post : List (Queue α)} {q r : Queue α}
    (hr : r ∈ pre ++ post) : r ∈ pre ++ q :: post := by
  rcases List.mem_append.mp hr with h | h
  · exact List.mem_append_left _ h
  · exact List.mem_append_right _ (List.mem_cons_of_mem _ h)

/-- **One `insert` on a chain.** It answers as the abstract insert on the chain's view, moves the
view as the abstract insert does, keeps the invariant, and makes non-empty only queues of its
key. -/
theorem chainInsert_spec {c : Chain α} (hinv : ChainInv c) {m : Spec UInt64 α}
    (hm : ∀ k, m k = lookup k c.allQueues) (key : UInt64) (value : α) (type : InsertType) :
    (chainInsert c key value type).1 = (m.insert key value type).1 ∧
      (∀ k, lookup k (chainInsert c key value type).2.allQueues = (m.insert key value type).2 k) ∧
      ChainInv (chainInsert c key value type).2 ∧
      ∀ q ∈ (chainInsert c key value type).2.allQueues, q.is_empty = false →
        q.key = key ∨ q ∈ c.allQueues := by
  have hF := @searchChain_found α key
    (if type = InsertType.send then InsertType.recv else InsertType.send) true false c
  have hN := @searchChain_none α key
    (if type = InsertType.send then InsertType.recv else InsertType.send) true false c
  have hE := @searchChain_first_empty α key
    (if type = InsertType.send then InsertType.recv else InsertType.send) true false c
  have hS := @searchChain_sublist α key
    (if type = InsertType.send then InsertType.recv else InsertType.send) true false c
  simp only [chainInsert]
  generalize searchChain key (if type = InsertType.send then InsertType.recv else InsertType.send)
    true false c = s at hF hN hE hS ⊢
  obtain ⟨kept, fe, found⟩ := s
  have hmk : ∀ k, m k = lookup k kept.allQueues := fun k => by
    rw [hm, ← lookup_filter, ← hS.2, lookup_filter]
  have hwf : ∀ q ∈ kept.allQueues, q.WF := fun q hq => hinv.wf q (hS.1.subset hq)
  have hnodup : (activeKeys kept.allQueues).Nodup := by
    rw [activeKeys, hS.2]
    exact hinv.nodup
  have hfrom : ∀ q ∈ kept.allQueues, q ∈ c.allQueues := fun q hq => hS.1.subset hq
  rcases found with _ | ⟨p, _ | _⟩
  · have hnone := hN rfl
    have hmkey : m key = none := by rw [hmk]; exact lookup_eq_none hnone
    rw [Spec.insert_of_none hmkey]
    rcases fe with _ | p
    · -- no empty queue: a new bucket of `2 n + 1` queues, whose first queue is set up
      dsimp only
      generalize ((kept.getLast?.map fun b => b.queues.length).getD 0 * 2) = n
      have hall : ((kept ++ [Bucket.alloc (n + 1)]).modifyQueue (fun q => q.setup key type value)
          kept.allQueues.length).allQueues =
          kept.allQueues ++ Queue.init.setup key type value :: List.replicate n Queue.init := by
        rw [Chain.allQueues_modifyQueue, Chain.allQueues_append]
        simp [Bucket.alloc, List.replicate_succ, modify_at_length]
      have hinit : ∀ r ∈ List.replicate n (Queue.init : Queue α), r.is_empty = true := by
        intro r hr
        rw [List.eq_of_mem_replicate hr]
        rfl
      have hfilt : (kept.allQueues ++ Queue.init :: List.replicate n Queue.init).filter
          (fun q => !q.is_empty) = kept.allQueues.filter (fun q => !q.is_empty) := by
        have hnil : (List.replicate n (Queue.init : Queue α)).filter (fun q => !q.is_empty) = [] :=
          List.filter_eq_nil_iff.mpr (fun r hr => by simp [hinit r hr])
        rw [List.filter_append, List.filter_cons_of_neg (by simp [Queue.init]), hnil,
          List.append_nil]
      obtain ⟨hlook, hinv', hloc⟩ := replace_spec (c := c) (m := m) (q := Queue.init)
        (fun r hr he => by
          rcases List.mem_append.mp hr with hr | hr
          · exact hfrom r hr
          · simp [hinit r hr] at he)
        (fun k => by rw [hmk, ← lookup_filter, ← hfilt, lookup_filter])
        (fun r hr => by
          rcases List.mem_append.mp hr with hr | hr
          · exact hwf r hr
          · intro he; simp [hinit r hr] at he)
        (fun r hr => by
          rcases List.mem_append.mp hr with hr | hr
          · exact hnone r hr
          · simp [Queue.holds, hinit r hr])
        (fun he => by simp [Queue.init] at he) hall (Queue.setup_view _ _ _ _).2.2 (Queue.setup_view _ _ _ _).2.1
        (activeKeys_setup _ _ rfl key type value
          (by rw [activeKeys, hfilt]; exact hnodup)
          (fun r hr => by
            rcases List.mem_append.mp hr with hr | hr
            · exact hnone r hr
            · rcases List.mem_cons.mp hr with rfl | hr
              · simp [Queue.holds, Queue.init]
              · simp [Queue.holds, hinit r hr]))
      refine ⟨rfl, fun k => by rw [hlook, (Queue.setup_view _ _ _ _).1], hinv', hloc⟩
    · -- the first empty queue of the chain is set up for the key
      obtain ⟨pre, q, post, hq, hlen, hempty⟩ := hE rfl
      dsimp only
      have hall : (kept.modifyQueue (fun q => q.setup key type value) p).allQueues =
          pre ++ q.setup key type value :: post := by
        rw [Chain.allQueues_modifyQueue, hq, ← hlen, modify_at_length]
      obtain ⟨hlook, hinv', hloc⟩ := replace_spec (c := c) (m := m) (q := q)
        (fun r hr _ => hfrom r (hq ▸ mem_middle_of_mem hr)) (fun k => by rw [hmk, hq])
        (fun r hr => hwf r (hq ▸ mem_middle_of_mem hr))
        (fun r hr => hnone r (hq ▸ mem_middle_of_mem hr)) (fun he => by simp [hempty] at he)
        hall (Queue.setup_view _ _ _ _).2.2 (Queue.setup_view _ _ _ _).2.1
        (activeKeys_setup _ _ hempty key type value (hq ▸ hnodup) (hq ▸ hnone))
      refine ⟨rfl, fun k => by rw [hlook, (Queue.setup_view _ _ _ _).1], hinv', hloc⟩
  · -- the queue of the key has the same kind: the value waits at its end
    obtain ⟨pre, q, post, hq, hlen, hholds, htype, -⟩ := hF rfl
    have hqe : q.is_empty = false := by simp [Queue.holds] at hholds; exact hholds.1
    have hqk : q.key = key := by simp [Queue.holds] at hholds; exact hholds.2
    have hothers := holds_unique (hq ▸ hnodup) hholds
    have hqwf := hwf q (by rw [hq]; simp)
    obtain ⟨w, hw, hwt⟩ := Queue.view_of_nonempty hqwf hqe
    have hmkey : m key = some w := by
      rw [hmk, hq, lookup_at (fun r hr => hothers r (List.mem_append_left _ hr))
        (fun r hr => hothers r (List.mem_append_right _ hr)) (fun _ => hqk), hw]
    have hwtype : w.type = type := by
      rw [hwt]
      exact eq_of_ne_target_type (by simpa using htype)
    rw [Spec.insert_of_same hmkey value type hwtype]
    obtain ⟨hview, hwf'⟩ := Queue.push_view hqwf hw value
    dsimp only
    have hall : (kept.modifyQueue (fun q => q.push value) p).allQueues =
        pre ++ q.push value :: post := by
      rw [Chain.allQueues_modifyQueue, hq, ← hlen, modify_at_length]
    obtain ⟨hlook, hinv', hloc⟩ := replace_spec (c := c) (m := m) (q := q)
      (fun r hr _ => hfrom r (hq ▸ mem_middle_of_mem hr)) (fun k => by rw [hmk, hq])
      (fun r hr => hwf r (hq ▸ mem_middle_of_mem hr)) hothers (fun _ => hqk) hall
      (by rw [Queue.push_key, hqk]) hwf'
      ((activeKeys_replace pre post (by rw [Queue.push_key]) hqe).nodup (hq ▸ hnodup))
    exact ⟨rfl, fun k => by rw [hlook, hview], hinv', hloc⟩
  · -- the queue of the key has the target kind: its oldest value is matched
    obtain ⟨pre, q, post, hq, hlen, hholds, htype, -⟩ := hF rfl
    have hqe : q.is_empty = false := by simp [Queue.holds] at hholds; exact hholds.1
    have hqk : q.key = key := by simp [Queue.holds] at hholds; exact hholds.2
    have hothers := holds_unique (hq ▸ hnodup) hholds
    have hqwf := hwf q (by rw [hq]; simp)
    obtain ⟨w, hw, hwt⟩ := Queue.view_of_nonempty hqwf hqe
    have hmkey : m key = some w := by
      rw [hmk, hq, lookup_at (fun r hr => hothers r (List.mem_append_left _ hr))
        (fun r hr => hothers r (List.mem_append_right _ hr)) (fun _ => hqk), hw]
    have hwtype : w.type ≠ type := by
      rw [hwt, beq_iff_eq.mp htype]
      exact target_type_ne type
    rw [Spec.insert_of_other hmkey value type hwtype]
    obtain ⟨hret, hview, hwf'⟩ := Queue.pop_view hqwf hw
    dsimp only
    have hall : (kept.modifyQueue (fun q => q.pop.2) p).allQueues = pre ++ q.pop.2 :: post := by
      rw [Chain.allQueues_modifyQueue, hq, ← hlen, modify_at_length]
    obtain ⟨hlook, hinv', hloc⟩ := replace_spec (c := c) (m := m) (q := q)
      (fun r hr _ => hfrom r (hq ▸ mem_middle_of_mem hr)) (fun k => by rw [hmk, hq])
      (fun r hr => hwf r (hq ▸ mem_middle_of_mem hr)) hothers (fun _ => hqk) hall
      (by rw [Queue.pop_key, hqk]) hwf'
      ((activeKeys_replace pre post (by rw [Queue.pop_key]) hqe).nodup (hq ▸ hnodup))
    refine ⟨?_, fun k => by rw [hlook, hview], hinv', hloc⟩
    rw [Chain.getQueue, hq, ← hlen, getD_at_length, hret]

/-! ### The table -/

/-- The invariant of the table: every chain keeps `ChainInv`, and a non-empty queue sits in the
chain its key hashes to. -/
structure TableInv (t : Table α) : Prop where
  chain : ∀ i, ChainInv (t i)
  hashed : ∀ i, ∀ q ∈ (t i).allQueues, q.is_empty = false → bucket_idx q.key = i

/-- The abstract state a table stands for: the view of each key in the chain it hashes to. -/
def Table.view (t : Table α) : Spec UInt64 α := fun k => lookup k (t (bucket_idx k)).allQueues

/-- The keys of the non-empty queues of the whole table, master bucket by master bucket. -/
def Table.activeKeys (t : Table α) : List UInt64 :=
  (List.finRange TABLE_NUM_MASTER_BUCKETS).flatMap fun i => MatchingMap.activeKeys (t i).allQueues

theorem mem_activeKeys {qs : List (Queue α)} {k : UInt64} :
    k ∈ activeKeys qs ↔ ∃ q ∈ qs, q.is_empty = false ∧ q.key = k := by
  simp [activeKeys, and_assoc]

/-- **One `insert` on the table.** Under the invariant it answers as the abstract insert on the
view, keeps the invariant and moves the view as the abstract insert moves the abstract state. -/
theorem Table.insert_spec {t : Table α} (hinv : TableInv t) (key : UInt64) (value : α)
    (type : InsertType) :
    (t.insert key value type).1 = (t.view.insert key value type).1 ∧
      TableInv (t.insert key value type).2 ∧
      (t.insert key value type).2.view = (t.view.insert key value type).2 := by
  obtain ⟨hans, hlook, hcinv, hloc⟩ := chainInsert_spec (hinv.chain (bucket_idx key))
    (m := fun k => lookup k (t (bucket_idx key)).allQueues) (fun _ => rfl) key value type
  have hkey : (fun k => lookup k (t (bucket_idx key)).allQueues) key = t.view key := rfl
  refine ⟨by rw [Table.insert, hans, @Spec.insert_fst_congr UInt64 α _ _ t.view key hkey],
    ⟨fun i => ?_, fun i => ?_⟩, ?_⟩
  · by_cases hi : i = bucket_idx key
    · subst hi
      simpa [Table.insert] using hcinv
    · simpa [Table.insert, hi] using hinv.chain i
  · by_cases hi : i = bucket_idx key
    · -- a queue the insert made non-empty holds `key`, which hashes here
      subst hi
      intro q hq he
      simp only [Table.insert, Function.update_self] at hq
      rcases hloc q hq he with hk | hq
      · rw [hk]
      · exact hinv.hashed _ q hq he
    · simpa [Table.insert, hi] using hinv.hashed i
  · funext k
    by_cases hk : bucket_idx k = bucket_idx key
    · -- `k` shares the chain of `key`
      have hview : (t.insert key value type).2.view k =
          (Spec.insert (fun k => lookup k (t (bucket_idx key)).allQueues) key value type).2 k := by
        simp only [Table.view, Table.insert, hk, Function.update_self, hlook]
      rw [hview]
      by_cases hkk : k = key
      · subst hkk
        exact @Spec.insert_self_congr UInt64 α _ _ t.view k hkey value type
      · rw [Spec.insert_apply_ne _ _ _ hkk, Spec.insert_apply_ne _ _ _ hkk]
        simp only [Table.view, hk]
    · -- the chain of `k` is untouched, and `k` is not `key`
      have hkk : k ≠ key := fun h => hk (h ▸ rfl)
      rw [Spec.insert_apply_ne _ _ _ hkk]
      simp only [Table.view, Table.insert, Function.update_of_ne hk]

theorem Table.init_empty {i : Fin TABLE_NUM_MASTER_BUCKETS} {q : Queue α}
    (hq : q ∈ ((Table.init : Table α) i).allQueues) : q.is_empty = true := by
  simp only [Table.init, Bucket.alloc, Chain.allQueues_cons, Chain.allQueues_nil,
    List.append_nil] at hq
  rw [List.eq_of_mem_replicate hq]
  rfl

theorem Table.init_inv : TableInv (Table.init : Table α) := by
  refine ⟨fun i => ⟨fun q hq he => ?_, ?_⟩, fun i q hq he => ?_⟩
  · simp [Table.init_empty hq] at he
  · have hnil : MatchingMap.activeKeys ((Table.init : Table α) i).allQueues = [] := by
      simp only [MatchingMap.activeKeys, List.map_eq_nil_iff, List.filter_eq_nil_iff]
      intro q hq
      simp [Table.init_empty hq]
    rw [hnil]
    exact List.nodup_nil
  · simp [Table.init_empty hq] at he

theorem Table.init_view : (Table.init : Table α).view = Spec.empty := by
  funext k
  exact lookup_eq_none fun q hq => by simp [Queue.holds, Table.init_empty hq]

/-- Under the invariant no two non-empty queues of the table hold one key. -/
theorem TableInv.activeKeys_nodup {t : Table α} (hinv : TableInv t) : t.activeKeys.Nodup := by
  -- keys of one chain are distinct, and chains hold keys of different hashes
  have hin : ∀ i, ∀ k ∈ activeKeys (t i).allQueues, bucket_idx k = i := by
    intro i k hk
    obtain ⟨q, hq, he, rfl⟩ := mem_activeKeys.mp hk
    exact hinv.hashed i q hq he
  refine List.nodup_flatMap.mpr ⟨fun i _ => (hinv.chain i).nodup, ?_⟩
  refine (List.nodup_finRange _).imp fun {i j} hij => ?_
  intro k hki hkj
  exact hij ((hin i k hki).symm.trans (hin j k hkj))

/-- The table, under its invariant and read through its view, simulates the abstract engine. -/
theorem Table.simulation :
    Simulation (Table.step (α := α)) Spec.step (fun t m => TableInv t ∧ t.view = m) := by
  refine Simulation.of_inv fun t m r hinv hview => ?_
  subst hview
  exact Table.insert_spec hinv r.1 r.2.1 r.2.2

/-- **The hashed engine refines the abstract engine.** On every request sequence the table
answers exactly as the abstract engine does, its view is the abstract state, and no two
non-empty queues of the table hold one key. -/
theorem insert_refines_spec (ops : List (UInt64 × α × InsertType)) :
    (run Table.step Table.init ops).1 = (run Spec.step Spec.empty ops).1 ∧
      (run Table.step Table.init ops).2.view = (run Spec.step Spec.empty ops).2 ∧
      (run Table.step Table.init ops).2.activeKeys.Nodup := by
  obtain ⟨hout, hinv, hview⟩ := Table.simulation.run ⟨Table.init_inv, Table.init_view⟩ ops
  exact ⟨hout, hview, hinv.activeKeys_nodup⟩

end Lci.MatchingMap
