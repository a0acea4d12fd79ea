import Lci.MatchingMapQueue

/-! The hashed matching engine `matching_engine_map_t`. A table of `2^16` master buckets, each the
head of a chain of buckets linked by `control.next`; a bucket holds `nqueues` queues (three in a
master bucket). `insert` hashes the key to a master bucket and, under its lock, walks the chain:
it remembers the first empty queue, frees every overflow bucket all of whose queues are empty, and
stops at the first non-empty queue of the key. A queue of the other kind is popped, a queue of the
same kind pushed; without one, the first empty queue is set up for the key, or a new bucket of
`2 n + 1` queues is linked after the last bucket of `n` queues.

A chain is read as the list of its queues, bucket after bucket (`Chain.allQueues`); positions in
the chain are positions in that list. The engine is read as the abstract engine of
`Lci.Matching.Spec` through `Chain.lookup`, the view of the first non-empty queue of a key. -/

namespace Lci.MatchingMap

open Matching

/-- `BUCKET_NUM_QUEUES_DEFAULT`, the queues of a master bucket. -/
def BUCKET_NUM_QUEUES_DEFAULT : Nat := 3

def TABLE_BIT_SIZE : Nat := 16

/-- `TABLE_NUM_MASTER_BUCKETS` (`1 << 16`). -/
def TABLE_NUM_MASTER_BUCKETS : Nat := 2 ^ TABLE_BIT_SIZE

/-- `hash_fn`: FNV-1a over the eight bytes of the key, folded to 16 bits. The source computes
each round in 64 bits and stores it in a `uint32_t`; the truncation commutes with `^` and `*`, so
the rounds are computed in 32 bits here. -/
def hash_fn (k : UInt64) : UInt32 :=
  let Prime : UInt32 := 0x01000193
  let Seed : UInt32 := 0x811C9DC5
  let byte (shift : UInt64) : UInt32 := ((k >>> shift) &&& 0xff).toUInt32
  let hash := (byte 0 ^^^ Seed) * Prime
  let hash := (byte 8 ^^^ hash) * Prime
  let hash := (byte 16 ^^^ hash) * Prime
  let hash := (byte 24 ^^^ hash) * Prime
  let hash := (byte 32 ^^^ hash) * Prime
  let hash := (byte 40 ^^^ hash) * Prime
  let hash := (byte 48 ^^^ hash) * Prime
  let hash := (byte 56 ^^^ hash) * Prime
  ((hash >>> 16) ^^^ hash) &&& (((1 : UInt32) <<< 16) - 1)

theorem hash_fn_lt (k : UInt64) : (hash_fn k).toNat < TABLE_NUM_MASTER_BUCKETS := by
  unfold hash_fn
  rw [UInt32.toNat_and]
  exact Nat.lt_of_le_of_lt Nat.and_le_right (by decide)

/-- `get_master_bucket(hash_fn(key))`: the master bucket of a key. -/
def bucket_idx (k : UInt64) : Fin TABLE_NUM_MASTER_BUCKETS := ⟨(hash_fn k).toNat, hash_fn_lt k⟩

variable {α : Type}

/-- `bucket_t`: its `nqueues` queues. -/
structure Bucket (α : Type) where
  queues : List (Queue α)
  deriving DecidableEq, Repr

/-- `bucket_t::alloc(nqueues)`: a bucket of `nqueues` fresh queues. -/
def Bucket.alloc (nqueues : Nat) : Bucket α := ⟨List.replicate nqueues Queue.init⟩

/-- A chain: a master bucket and its overflow buckets, in `control.next` order. -/
abbrev Chain (α : Type) := List (Bucket α)

/-- The queues of a chain, bucket after bucket. -/
def Chain.allQueues (c : Chain α) : List (Queue α) := (c.map Bucket.queues).flatten

/-- The queue at position `p` of a chain replaced by `f` of it. -/
def Chain.modifyQueue (f : Queue α → Queue α) : Chain α → Nat → Chain α
  | [], _ => []
  | b :: bs, p =>
      if p < b.queues.length then ⟨b.queues.modify p f⟩ :: bs
      else b :: Chain.modifyQueue f bs (p - b.queues.length)

/-- The queue at position `p` of a chain (a fresh queue past the end, where the source would
dereference a pointer the search never returns). -/
def Chain.getQueue (c : Chain α) (p : Nat) : Queue α := c.allQueues.getD p Queue.init

/-- What the queue loop of `insert` finds in one bucket, positions counted in the bucket. -/
structure BucketScan where
  /-- `first_empty_queue`, when it was not set in an earlier bucket -/
  first_empty : Option Nat
  /-- the queue of the key (`target_queue` or `same_type_queue`) and whether it has the target
  type -/
  found : Option (Nat × Bool)
  /-- `is_current_bucket_nonempty` -/
  nonempty : Bool
  deriving DecidableEq, Repr

/-- A scan of the queues after the first, with positions counted from the first. -/
def BucketScan.next (r : BucketScan) : BucketScan :=
  ⟨r.first_empty.map (· + 1), r.found.map fun f => (f.1 + 1, f.2), r.nonempty⟩

/-- The `for` loop of `insert` over the queues of one bucket. `seenEmpty` says whether
`first_empty_queue` is already set. -/
def scanBucket (key : UInt64) (target_type : InsertType) (seenEmpty : Bool) :
    List (Queue α) → BucketScan
  | [] => ⟨none, none, false⟩
  | q :: qs =>
      if q.is_empty then
        if seenEmpty then (scanBucket key target_type true qs).next
        -- the first empty queue: remembered, and its bucket is not freed
        else { (scanBucket key target_type true qs).next with first_empty := some 0, nonempty := true }
      else if q.key = key then ⟨none, some (0, q.type == target_type), true⟩
      else { (scanBucket key target_type seenEmpty qs).next with nonempty := true }

/-- What the bucket loop of `insert` finds, positions counted over the queues of the chain it
keeps. -/
structure ChainScan where
  first_empty : Option Nat
  found : Option (Nat × Bool)
  deriving DecidableEq, Repr

/-- The `while` loop of `insert` over the buckets of a chain: the chain that remains after the
loop frees the overflow buckets it finds empty, and what it found. `isMaster` says whether the
current bucket is the master bucket (`previous_bucket == nullptr`). -/
def searchChain (key : UInt64) (target_type : InsertType) (isMaster seenEmpty : Bool) :
    Chain α → Chain α × ChainScan
  | [] => ([], ⟨none, none⟩)
  | b :: rest =>
      match (scanBucket key target_type seenEmpty b.queues).found with
      | some f => (b :: rest, ⟨(scanBucket key target_type seenEmpty b.queues).first_empty, some f⟩)
      | none =>
          if !(scanBucket key target_type seenEmpty b.queues).nonempty && !isMaster then
            -- every queue of this overflow bucket is empty: it is unlinked and freed
            searchChain key target_type false seenEmpty rest
          else
            let s := searchChain key target_type false
              (seenEmpty || (scanBucket key target_type seenEmpty b.queues).first_empty.isSome) rest
            (b :: s.1,
              ⟨(scanBucket key target_type seenEmpty b.queues).first_empty <|>
                  s.2.first_empty.map (· + b.queues.length),
                s.2.found.map fun f => (f.1 + b.queues.length, f.2)⟩)

/-- `matching_engine_map_t::insert` on the chain of the key's master bucket. -/
def chainInsert (chain : Chain α) (key : UInt64) (value : α) (type : InsertType) :
    Option α × Chain α :=
  let target_type := if type = .send then InsertType.recv else .send
  let s := searchChain key target_type true false chain
  match s.2.found with
  | some (p, true) => ((s.1.getQueue p).pop.1, s.1.modifyQueue (fun q => q.pop.2) p)
  | some (p, false) => (none, s.1.modifyQueue (fun q => q.push value) p)
  | none =>
      match s.2.first_empty with
      | some p => (none, s.1.modifyQueue (fun q => q.setup key type value) p)
      | none =>
          -- no empty queue in the chain: a bucket of `2 n + 1` queues after the last one, whose
          -- first queue is set up (a chain always keeps its master bucket, so `getD` is unused)
          let nqueues := (s.1.getLast?.map fun b => b.queues.length).getD 0 * 2 + 1
          (none, (s.1 ++ [Bucket.alloc nqueues]).modifyQueue (fun q => q.setup key type value)
            s.1.allQueues.length)

/-- The table of master buckets, each with its chain. -/
abbrev Table (α : Type) := Fin TABLE_NUM_MASTER_BUCKETS → Chain α

/-- `matching_engine_map_t(attr)`: every master bucket alone, with three empty queues. -/
def Table.init : Table α := fun _ => [Bucket.alloc BUCKET_NUM_QUEUES_DEFAULT]

def Table.insert (t : Table α) (key : UInt64) (value : α) (type : InsertType) :
    Option α × Table α :=
  ((chainInsert (t (bucket_idx key)) key value type).1,
    Function.update t (bucket_idx key) (chainInsert (t (bucket_idx key)) key value type).2)

/-- The engine as a machine over `(key, value, type)` requests. -/
def Table.step (t : Table α) (r : UInt64 × α × InsertType) : Option α × Table α :=
  t.insert r.1 r.2.1 r.2.2

/-- The non-empty queue of `key`: the queue the search of `insert` stops at. -/
def Queue.holds (key : UInt64) (q : Queue α) : Bool := !q.is_empty && q.key == key

/-! ### The scans of `insert` -/

private theorem modify_append_left {l₁ l₂ : List (Queue α)} {i : Nat} (f : Queue α → Queue α)
    (h : i < l₁.length) : (l₁ ++ l₂).modify i f = l₁.modify i f ++ l₂ := by
  induction l₁ generalizing i with
  | nil => simp at h
  | cons x xs ih =>
      cases i with
      | zero => simp
      | succ i => simp [ih (by simpa using h)]

private theorem modify_append_right {l₁ l₂ : List (Queue α)} {i : Nat} (f : Queue α → Queue α)
    (h : l₁.length ≤ i) : (l₁ ++ l₂).modify i f = l₁ ++ l₂.modify (i - l₁.length) f := by
  induction l₁ generalizing i with
  | nil => simp
  | cons x xs ih =>
      cases i with
      | zero => simp at h
      | succ i => simp [ih (by simpa using h)]

theorem modify_at_length (pre post : List (Queue α)) (q : Queue α) (f : Queue α → Queue α) :
    (pre ++ q :: post).modify pre.length f = pre ++ f q :: post := by
  rw [modify_append_right f (Nat.le_refl _), Nat.sub_self, List.modify_zero_cons]

theorem getD_at_length (pre post : List (Queue α)) (q d : Queue α) :
    (pre ++ q :: post).getD pre.length d = q := by
  simp [List.getD_eq_getElem?_getD]

@[simp] theorem Chain.allQueues_nil : Chain.allQueues ([] : Chain α) = [] := rfl

@[simp] theorem Chain.allQueues_cons (b : Bucket α) (bs : Chain α) :
    Chain.allQueues (b :: bs) = b.queues ++ Chain.allQueues bs := rfl

theorem Chain.allQueues_append (c d : Chain α) :
    Chain.allQueues (c ++ d) = c.allQueues ++ d.allQueues := by
  simp [Chain.allQueues]

theorem Chain.allQueues_modifyQueue (f : Queue α → Queue α) (c : Chain α) (p : Nat) :
    (c.modifyQueue f p).allQueues = c.allQueues.modify p f := by
  induction c generalizing p with
  | nil => simp [Chain.modifyQueue]
  | cons b bs ih =>
      unfold Chain.modifyQueue
      split_ifs with hp
      · simp [modify_append_left f hp]
      · simp [ih, modify_append_right f (Nat.le_of_not_lt hp)]

@[simp] theorem BucketScan.next_found (r : BucketScan) :
    r.next.found = r.found.map fun f => (f.1 + 1, f.2) := rfl

@[simp] theorem BucketScan.next_first_empty (r : BucketScan) :
    r.next.first_empty = r.first_empty.map (· + 1) := rfl

@[simp] theorem BucketScan.next_nonempty (r : BucketScan) : r.next.nonempty = r.nonempty := rfl

theorem scanBucket_found {key : UInt64} {tt : InsertType} {se : Bool} {qs : List (Queue α)}
    {i : Nat} {t : Bool} (h : (scanBucket key tt se qs).found = some (i, t)) :
    ∃ pre q post, qs = pre ++ q :: post ∧ pre.length = i ∧ q.holds key = true ∧
      (q.type == tt) = t ∧ ∀ r ∈ pre, r.holds key = false := by
  induction qs generalizing se i with
  | nil => simp [scanBucket] at h
  | cons q qs ih =>
      have hnext : ∀ se', (scanBucket key tt se' qs).next.found = some (i, t) → q.holds key = false →
          ∃ pre q' post, q :: qs = pre ++ q' :: post ∧ pre.length = i ∧ q'.holds key = true ∧
            (q'.type == tt) = t ∧ ∀ r ∈ pre, r.holds key = false := by
        intro se' hf hq
        rw [BucketScan.next_found, Option.map_eq_some_iff] at hf
        obtain ⟨⟨j, t'⟩, hj, hji⟩ := hf
        simp only [Prod.mk.injEq] at hji
        obtain ⟨rfl, rfl⟩ := hji
        obtain ⟨pre, q', post, rfl, hlen, hq', htype, hpre⟩ := ih hj
        refine ⟨q :: pre, q', post, rfl, by simp [hlen], hq', htype, ?_⟩
        intro r hr
        rcases List.mem_cons.mp hr with rfl | hr
        · exact hq
        · exact hpre r hr
      unfold scanBucket at h
      split_ifs at h with he hse hkey
      · exact hnext true h (by simp [Queue.holds, he])
      · exact hnext true h (by simp [Queue.holds, he])
      · simp only [Option.some.injEq, Prod.mk.injEq] at h
        obtain ⟨rfl, rfl⟩ := h
        exact ⟨[], q, qs, rfl, rfl, by simp [Queue.holds, he, hkey], rfl, by simp⟩
      · exact hnext se h (by simp [Queue.holds, hkey])

theorem scanBucket_none {key : UInt64} {tt : InsertType} {se : Bool} {qs : List (Queue α)}
    (h : (scanBucket key tt se qs).found = none) : ∀ q ∈ qs, q.holds key = false := by
  induction qs generalizing se with
  | nil => simp
  | cons q qs ih =>
      intro r hr
      by_cases he : q.is_empty = true
      · have hrest : (scanBucket key tt true qs).found = none := by
          cases se <;> simpa [scanBucket, he] using h
        rcases List.mem_cons.mp hr with rfl | hr
        · simp [Queue.holds, he]
        · exact ih hrest r hr
      · by_cases hkey : q.key = key
        · simp [scanBucket, he, hkey] at h
        · have hrest : (scanBucket key tt se qs).found = none := by
            simpa [scanBucket, he, hkey] using h
          rcases List.mem_cons.mp hr with rfl | hr
          · simp [Queue.holds, hkey]
          · exact ih hrest r hr

theorem scanBucket_first_empty {key : UInt64} {tt : InsertType} {se : Bool}
    {qs : List (Queue α)} {i : Nat} (h : (scanBucket key tt se qs).first_empty = some i) :
    ∃ pre q post, qs = pre ++ q :: post ∧ pre.length = i ∧ q.is_empty = true := by
  induction qs generalizing se i with
  | nil => simp [scanBucket] at h
  | cons q qs ih =>
      have hnext : ∀ se', (∃ j, (scanBucket key tt se' qs).first_empty = some j ∧ j + 1 = i) →
          ∃ pre q' post, q :: qs = pre ++ q' :: post ∧ pre.length = i ∧ q'.is_empty = true := by
        rintro se' ⟨j, hj, rfl⟩
        obtain ⟨pre, q', post, rfl, hlen, hq'⟩ := ih hj
        exact ⟨q :: pre, q', post, rfl, by simp [hlen], hq'⟩
      by_cases he : q.is_empty = true
      · cases se
        · have h0 : i = 0 := by simp [scanBucket, he] at h; omega
          subst h0
          exact ⟨[], q, qs, rfl, rfl, he⟩
        · exact hnext true (by simpa [scanBucket, he] using h)
      · by_cases hkey : q.key = key
        · simp [scanBucket, he, hkey] at h
        · exact hnext se (by simpa [scanBucket, he, hkey] using h)

/-- A bucket the scan finds without a non-empty queue (and without the first empty queue)
holds only empty queues. -/
theorem scanBucket_nonempty {key : UInt64} {tt : InsertType} {se : Bool} {qs : List (Queue α)}
    (h : (scanBucket key tt se qs).nonempty = false) : ∀ q ∈ qs, q.is_empty = true := by
  induction qs generalizing se with
  | nil => simp
  | cons q qs ih =>
      intro r hr
      by_cases he : q.is_empty = true
      · cases se
        · simp [scanBucket, he] at h
        · rcases List.mem_cons.mp hr with rfl | hr
          · exact he
          · exact ih (by simpa [scanBucket, he] using h) r hr
      · by_cases hkey : q.key = key <;> simp [scanBucket, he, hkey] at h

section searchChain

variable {key : UInt64} {tt : InsertType}

/-- The search frees only buckets of empty queues: it keeps every non-empty queue, in order. -/
theorem searchChain_sublist (isMaster se : Bool) (c : Chain α) :
    (searchChain key tt isMaster se c).1.allQueues.Sublist c.allQueues ∧
      (searchChain key tt isMaster se c).1.allQueues.filter (fun q => !q.is_empty) =
        c.allQueues.filter (fun q => !q.is_empty) := by
  induction c generalizing isMaster se with
  | nil => exact ⟨List.Sublist.refl _, rfl⟩
  | cons b rest ih =>
      rcases hf : (scanBucket key tt se b.queues).found with _ | f
      · by_cases hfree : (!(scanBucket key tt se b.queues).nonempty && !isMaster) = true
        · -- a freed bucket held only empty queues
          have hempty := scanBucket_nonempty (by simpa using (Bool.and_eq_true _ _).mp hfree |>.1)
          simp only [searchChain, hf, hfree, ↓reduceIte]
          obtain ⟨hsub, hfilter⟩ := ih false se
          refine ⟨hsub.trans (List.sublist_append_right _ _), ?_⟩
          have hnil : b.queues.filter (fun q => !q.is_empty) = [] :=
            List.filter_eq_nil_iff.mpr (fun q hq => by simp [hempty q hq])
          rw [hfilter, Chain.allQueues_cons, List.filter_append, hnil, List.nil_append]
        · simp only [searchChain, hf, hfree, Bool.false_eq_true, ↓reduceIte, Chain.allQueues_cons]
          obtain ⟨hsub, hfilter⟩ := ih false
            (se || (scanBucket key tt se b.queues).first_empty.isSome)
          exact ⟨hsub.append_left _, by rw [List.filter_append, List.filter_append, hfilter]⟩
      · simp only [searchChain, hf, and_true]
        exact List.Sublist.refl _

/-- The queue the search finds is the first non-empty queue of the key in the chain it keeps. -/
theorem searchChain_found {isMaster se : Bool} {c : Chain α} {p : Nat} {t : Bool}
    (h : (searchChain key tt isMaster se c).2.found = some (p, t)) :
    ∃ pre q post, (searchChain key tt isMaster se c).1.allQueues = pre ++ q :: post ∧
      pre.length = p ∧ q.holds key = true ∧ (q.type == tt) = t ∧
      ∀ r ∈ pre, r.holds key = false := by
  induction c generalizing isMaster se p with
  | nil => simp [searchChain] at h
  | cons b rest ih =>
      rcases hf : (scanBucket key tt se b.queues).found with _ | f
      · have hb := scanBucket_none hf
        by_cases hfree : (!(scanBucket key tt se b.queues).nonempty && !isMaster) = true
        · simp only [searchChain, hf, hfree, ↓reduceIte] at h ⊢
          exact ih h
        · simp only [searchChain, hf, hfree, Bool.false_eq_true, ↓reduceIte, Option.map_eq_some_iff] at h ⊢
          obtain ⟨⟨p', t'⟩, hp', hpt⟩ := h
          simp only [Prod.mk.injEq] at hpt
          obtain ⟨rfl, rfl⟩ := hpt
          obtain ⟨pre, q, post, hq, hlen, hholds, htype, hpre⟩ := ih hp'
          refine ⟨b.queues ++ pre, q, post, by rw [Chain.allQueues_cons, hq, List.append_assoc],
            by simp [hlen, Nat.add_comm], hholds, htype, fun r hr => ?_⟩
          rcases List.mem_append.mp hr with hr | hr
          · exact hb r hr
          · exact hpre r hr
      · simp only [searchChain, hf, Option.some.injEq] at h ⊢
        subst h
        obtain ⟨pre, q, post, hq, hlen, hholds, htype, hpre⟩ := scanBucket_found hf
        exact ⟨pre, q, post ++ Chain.allQueues rest, by rw [Chain.allQueues_cons, hq]; simp,
          hlen, hholds, htype, hpre⟩

theorem searchChain_none {isMaster se : Bool} {c : Chain α}
    (h : (searchChain key tt isMaster se c).2.found = none) :
    ∀ q ∈ (searchChain key tt isMaster se c).1.allQueues, q.holds key = false := by
  induction c generalizing isMaster se with
  | nil => simp [searchChain]
  | cons b rest ih =>
      rcases hf : (scanBucket key tt se b.queues).found with _ | f
      · have hb := scanBucket_none hf
        by_cases hfree : (!(scanBucket key tt se b.queues).nonempty && !isMaster) = true
        · simp only [searchChain, hf, hfree, ↓reduceIte] at h ⊢
          exact ih h
        · simp only [searchChain, hf, hfree, Bool.false_eq_true, ↓reduceIte, Option.map_eq_none_iff] at h ⊢
          intro q hq
          rcases List.mem_append.mp (by simpa using hq) with hq | hq
          · exact hb q hq
          · exact ih h q hq
      · simp [searchChain, hf] at h

theorem searchChain_first_empty {isMaster se : Bool} {c : Chain α} {p : Nat}
    (h : (searchChain key tt isMaster se c).2.first_empty = some p) :
    ∃ pre q post, (searchChain key tt isMaster se c).1.allQueues = pre ++ q :: post ∧
      pre.length = p ∧ q.is_empty = true := by
  induction c generalizing isMaster se p with
  | nil => simp [searchChain] at h
  | cons b rest ih =>
      rcases hf : (scanBucket key tt se b.queues).found with _ | f
      · by_cases hfree : (!(scanBucket key tt se b.queues).nonempty && !isMaster) = true
        · simp only [searchChain, hf, hfree, ↓reduceIte] at h ⊢
          exact ih h
        · simp only [searchChain, hf, hfree, Bool.false_eq_true, ↓reduceIte] at h ⊢
          rcases hb : (scanBucket key tt se b.queues).first_empty with _ | i
          · -- the empty queue lies in a later bucket
            simp only [hb, Option.orElse_eq_orElse, Option.orElse_none, Option.map_eq_some_iff] at h
            obtain ⟨p', hp', rfl⟩ := h
            obtain ⟨pre, q, post, hq, hlen, hempty⟩ := ih hp'
            exact ⟨b.queues ++ pre, q, post, by rw [Chain.allQueues_cons, hq, List.append_assoc],
              by simp [hlen, Nat.add_comm], hempty⟩
          · simp only [hb, Option.orElse_eq_orElse, Option.orElse_some, Option.some.injEq] at h
            subst h
            obtain ⟨pre, q, post, hq, hlen, hempty⟩ := scanBucket_first_empty hb
            exact ⟨pre, q, post ++ (searchChain key tt false true rest).1.allQueues,
              by rw [Chain.allQueues_cons, hq]; simp, hlen, hempty⟩
      · simp only [searchChain, hf] at h ⊢
        obtain ⟨pre, q, post, hq, hlen, hempty⟩ := scanBucket_first_empty h
        exact ⟨pre, q, post ++ Chain.allQueues rest, by rw [Chain.allQueues_cons, hq]; simp, hlen, hempty⟩

end searchChain

end Lci.MatchingMap
