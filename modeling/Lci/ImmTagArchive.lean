import Lci.Rendezvous

/-! `imm_tag_archive_t`, the table of `2^tag_bits` slots in which the receiver of a rendezvous
files its context under a tag small enough to ride in the immediate data of an RDMA write.
`insert` takes a starting slot from a `fetch_add` cursor and tries `compare_exchange` from empty
at each slot in turn; `remove` takes the value out of its slot with `exchange`. Threads interleave
at every atomic operation: the `fetch_add`, each `compare_exchange` and each `exchange`.

The slots always hold exactly the outstanding entries (`Inv`): each tag returned by an insert and
not removed since holds its value, every other slot is empty, and the tags are distinct and below
`2^tag_bits`. So `remove` returns the value its tag was given and empties the slot, and an
`insert` that runs alone with fewer than `2^tag_bits` entries outstanding finds an empty slot,
since its scan visits every slot. With the immediate word of `Lci.Rendezvous`, the FIN carries
the tag and the receiver takes out the context it filed. -/

namespace Lci.ImmTagArchive

open Rendezvous ImmData

/-- `imm_tag_archive_t`: the values of the slots and the cursor `next_slot_`. -/
structure imm_tag_archive_t where
  tag_bits : Nat
  slots : Nat → Nat
  next_slot : Nat

/-- `empty_value()`, the largest `uint64_t`. -/
def empty_value : Nat := 2 ^ 64 - 1

namespace imm_tag_archive_t

/-- `size_`, that is `1u << tag_bits_`. -/
def size (a : imm_tag_archive_t) : Nat := 2 ^ a.tag_bits

def mask (a : imm_tag_archive_t) : Nat := a.size - 1

/-- The constructor: every slot empty and the cursor at zero. -/
def init (tag_bits : Nat) : imm_tag_archive_t := ⟨tag_bits, fun _ => empty_value, 0⟩

/-- The `fetch_add` of `insert`: the old cursor, masked, and the archive with the cursor
advanced as the `uint32_t` it is. -/
def fetch_start (a : imm_tag_archive_t) : Nat × imm_tag_archive_t :=
  (a.next_slot &&& a.mask, { a with next_slot := (a.next_slot + 1) % 2 ^ 32 })

/-- The slot that iteration `i` of the loop of `insert` tries. -/
def slot_at (a : imm_tag_archive_t) (start i : Nat) : Nat := (start + i) &&& a.mask

/-- One `compare_exchange` of `insert`: fill slot `idx` with `value` if it holds `empty`. -/
def cas (a : imm_tag_archive_t) (idx value : Nat) : Option imm_tag_archive_t :=
  if a.slots idx = empty_value then some { a with slots := Function.update a.slots idx value }
  else none

/-- The loop of `insert` from iteration `i` with `fuel` iterations left; `none` when it runs
out, where the source asserts that the archive is exhausted. -/
def scan (a : imm_tag_archive_t) (value start : Nat) : Nat → Nat → Option (Nat × imm_tag_archive_t)
  | 0, _ => none
  | fuel + 1, i =>
    match a.cas (a.slot_at start i) value with
    | some a' => some (a.slot_at start i, a')
    | none => a.scan value start fuel (i + 1)

/-- `insert`, run without interleaving: the tag and the archive after it. -/
def insert (a : imm_tag_archive_t) (value : Nat) : Option (Nat × imm_tag_archive_t) :=
  a.fetch_start.2.scan value a.fetch_start.1 a.size 0

/-- `remove`: the value of slot `tag`, which the `exchange` leaves empty. -/
def remove (a : imm_tag_archive_t) (tag : Nat) : Nat × imm_tag_archive_t :=
  (a.slots tag, { a with slots := Function.update a.slots tag empty_value })

variable {a a' : imm_tag_archive_t} {value start idx : Nat}

theorem size_pos : 0 < a.size := Nat.two_pow_pos _

@[simp] theorem fetch_start_tag_bits : a.fetch_start.2.tag_bits = a.tag_bits := rfl

@[simp] theorem fetch_start_slots : a.fetch_start.2.slots = a.slots := rfl

@[simp] theorem remove_tag_bits (tag : Nat) : (a.remove tag).2.tag_bits = a.tag_bits := rfl

theorem and_mask (x : Nat) : x &&& a.mask = x % a.size :=
  Nat.and_two_pow_sub_one_eq_mod x a.tag_bits

theorem fetch_start_lt : a.fetch_start.1 < a.size := by
  rw [fetch_start, and_mask]
  exact Nat.mod_lt _ size_pos

theorem slot_at_eq (i : Nat) : a.slot_at start i = (start + i) % a.size := and_mask _

theorem slot_at_lt (i : Nat) : a.slot_at start i < a.size := by
  rw [slot_at_eq]
  exact Nat.mod_lt _ size_pos

/-- The scan from a slot below `size` reaches every slot within `size` iterations. -/
theorem exists_slot_at (hstart : start < a.size) (hidx : idx < a.size) :
    ∃ j < a.size, a.slot_at start j = idx := by
  refine ⟨(idx + a.size - start) % a.size, Nat.mod_lt _ size_pos, ?_⟩
  rw [slot_at_eq, Nat.add_mod_mod, show start + (idx + a.size - start) = idx + a.size by omega,
    Nat.add_mod_right, Nat.mod_eq_of_lt hidx]

theorem cas_eq_some (h : a.cas idx value = some a') :
    a.slots idx = empty_value ∧ a' = { a with slots := Function.update a.slots idx value } := by
  unfold cas at h
  split at h
  · rename_i hempty
    exact ⟨hempty, (Option.some.inj h).symm⟩
  · cases h

theorem cas_eq_none (h : a.cas idx value = none) : a.slots idx ≠ empty_value := by
  unfold cas at h
  split at h
  · cases h
  · assumption

theorem scan_eq_some {tag fuel i : Nat} (h : a.scan value start fuel i = some (tag, a')) :
    tag < a.size ∧ a.slots tag = empty_value ∧
      a' = { a with slots := Function.update a.slots tag value } := by
  induction fuel generalizing i with
  | zero => cases h
  | succ fuel ih =>
    unfold scan at h
    split at h
    · rename_i a'' hcas
      obtain ⟨rfl, rfl⟩ := Option.some.inj h |> Prod.mk.inj
      obtain ⟨hempty, rfl⟩ := cas_eq_some hcas
      exact ⟨slot_at_lt i, hempty, rfl⟩
    · exact ih h

theorem scan_isSome {fuel i : Nat} (hfuel : i + fuel = a.size)
    (hempty : ∃ j, i ≤ j ∧ j < a.size ∧ a.slots (a.slot_at start j) = empty_value) :
    (a.scan value start fuel i).isSome := by
  induction fuel generalizing i with
  | zero =>
    obtain ⟨j, hij, hj, -⟩ := hempty
    omega
  | succ fuel ih =>
    unfold scan
    split
    · rfl
    · rename_i hcas
      obtain ⟨j, hij, hj, hslot⟩ := hempty
      have hne : j ≠ i := fun hji => cas_eq_none hcas (hji ▸ hslot)
      exact ih (by omega) ⟨j, by omega, hj, hslot⟩

/-- What `insert` does when it returns: fill an empty slot below `size`. -/
theorem insert_eq_some {tag : Nat} (h : a.insert value = some (tag, a')) :
    tag < a.size ∧ a.slots tag = empty_value ∧ a'.tag_bits = a.tag_bits ∧
      a'.slots = Function.update a.slots tag value := by
  obtain ⟨hlt, hempty, rfl⟩ := scan_eq_some h
  exact ⟨hlt, hempty, rfl, rfl⟩

theorem insert_isSome (hempty : ∃ idx < a.size, a.slots idx = empty_value) :
    (a.insert value).isSome := by
  obtain ⟨idx, hidx, hslot⟩ := hempty
  have hstart : ∃ j < a.fetch_start.2.size, a.fetch_start.2.slot_at a.fetch_start.1 j = idx :=
    exists_slot_at fetch_start_lt hidx
  obtain ⟨j, hj, hat⟩ := hstart
  exact scan_isSome (Nat.zero_add _) ⟨j, Nat.zero_le _, hj, hat ▸ hslot⟩

end imm_tag_archive_t

open imm_tag_archive_t

/-- Where a thread is: between calls, or in the loop of an `insert` of `value` that started at
slot `start`, about to try iteration `i`. -/
inductive Pc
  | idle
  | inserting (value start i : Nat)

/-- The archive, the threads `T`, and the entries that inserts returned, as tag and value: those
not removed since, and all of them. -/
structure State (T : Type) where
  archive : imm_tag_archive_t
  pc : T → Pc
  outstanding : List (Nat × Nat)
  inserted : List (Nat × Nat)

/-- A step of thread `t`: the `fetch_add` of an insert, one `compare_exchange` of its loop, or a
`remove`, which the caller applies only to a tag returned and not removed since. -/
inductive Action (T : Type)
  | insert_begin (t : T) (value : Nat)
  | insert_try (t : T)
  | remove (t : T) (tag : Nat)

variable {T : Type} [DecidableEq T]

def State.init (tag_bits : Nat) : State T := ⟨imm_tag_archive_t.init tag_bits, fun _ => .idle, [], []⟩

/-- A step of one thread, where its program counter and the assertions allow it. -/
def step (s : State T) : Action T → Option (State T)
  | .insert_begin t value =>
    match s.pc t with
    | .idle =>
      if value = empty_value then none
      else some { s with
        archive := s.archive.fetch_start.2
        pc := Function.update s.pc t (.inserting value s.archive.fetch_start.1 0) }
    | _ => none
  | .insert_try t =>
    match s.pc t with
    | .inserting value start i =>
      if i < s.archive.size then
        match s.archive.cas (s.archive.slot_at start i) value with
        | some a =>
          some { archive := a
                 pc := Function.update s.pc t .idle
                 outstanding := s.outstanding ++ [(s.archive.slot_at start i, value)]
                 inserted := s.inserted ++ [(s.archive.slot_at start i, value)] }
        | none => some { s with pc := Function.update s.pc t (.inserting value start (i + 1)) }
      else none
    | _ => none
  | .remove t tag =>
    match s.pc t with
    | .idle =>
      if tag ∈ s.outstanding.map Prod.fst then
        some { s with
          archive := (s.archive.remove tag).2
          outstanding := s.outstanding.filter fun p => p.1 != tag }
      else none
    | _ => none

example : (([.insert_begin 0 5, .insert_try 0].foldlM step (State.init 1 : State (Fin 1))).map
    State.outstanding) = some [(0, 5)] := by decide

/-- The states of an archive of `tag_bits` bits under any interleaving of the threads' steps. -/
def Reachable (tag_bits : Nat) : State T → Prop :=
  Machine.Reachable (· = State.init tag_bits) (fun s s' => ∃ a, step s a = some s')

section Alone

variable {s : State T} {t : T} {value : Nat}

/-- A thread whose loop runs alone takes the steps that `scan` computes. -/
theorem scan_steps {start fuel tag : Nat} {a' : imm_tag_archive_t} :
    ∀ {s : State T} {i : Nat}, s.pc t = .inserting value start i → i + fuel ≤ s.archive.size →
      s.archive.scan value start fuel i = some (tag, a') →
      ∃ k, (List.replicate k (Action.insert_try t)).foldlM step s =
        some { archive := a'
               pc := Function.update s.pc t .idle
               outstanding := s.outstanding ++ [(tag, value)]
               inserted := s.inserted ++ [(tag, value)] } := by
  induction fuel with
  | zero => intro s i _ _ hscan; cases hscan
  | succ fuel ih =>
    intro s i hpc hfuel hscan
    have hi : i < s.archive.size := by omega
    unfold scan at hscan
    split at hscan
    · -- the exchange succeeds: one step ends the insert
      rename_i a hcas
      cases hscan
      refine ⟨1, ?_⟩
      simp only [List.replicate_one, List.foldlM_cons, List.foldlM_nil, step, hpc, if_pos hi,
        hcas]
      rfl
    · -- the slot was taken: the loop moves on with the archive unchanged
      rename_i hcas
      have hstep : step s (.insert_try t) =
          some { s with pc := Function.update s.pc t (.inserting value start (i + 1)) } := by
        simp only [step, hpc, if_pos hi, hcas]
      obtain ⟨k, hk⟩ := ih (s := { s with pc := Function.update s.pc t (.inserting value start (i + 1)) })
        (Function.update_self ..) (by simp only; omega) hscan
      refine ⟨k + 1, ?_⟩
      rw [List.replicate_succ, List.foldlM_cons, hstep, Option.bind_eq_bind, Option.bind_some, hk]
      simp only [Function.update_idem]

/-- A thread that runs an insert alone takes the steps that the sequential `insert` computes. -/
theorem insert_steps (hpc : s.pc t = .idle) (hv : value ≠ empty_value) {tag : Nat}
    {a' : imm_tag_archive_t} (hins : s.archive.insert value = some (tag, a')) :
    ∃ k, (Action.insert_begin t value :: List.replicate k (Action.insert_try t)).foldlM step s =
      some { archive := a'
             pc := s.pc
             outstanding := s.outstanding ++ [(tag, value)]
             inserted := s.inserted ++ [(tag, value)] } := by
  have hstep : step s (.insert_begin t value) =
      some { s with
        archive := s.archive.fetch_start.2
        pc := Function.update s.pc t (.inserting value s.archive.fetch_start.1 0) } := by
    simp only [step, hpc, if_neg hv]
  obtain ⟨k, hk⟩ := scan_steps (s := { s with
      archive := s.archive.fetch_start.2
      pc := Function.update s.pc t (.inserting value s.archive.fetch_start.1 0) })
    (Function.update_self ..) (by simp [size]) hins
  refine ⟨k, ?_⟩
  rw [List.foldlM_cons, hstep, Option.bind_eq_bind, Option.bind_some, hk]
  simp only [Function.update_idem, ← hpc, Function.update_eq_self]

end Alone

/-- The slots hold exactly the outstanding entries. -/
structure Inv (tag_bits : Nat) (s : State T) : Prop where
  tag_bits_eq : s.archive.tag_bits = tag_bits
  tags_lt : ∀ p ∈ s.inserted, p.1 < 2 ^ tag_bits
  outstanding_sub : ∀ p ∈ s.outstanding, p ∈ s.inserted
  nodup : (s.outstanding.map Prod.fst).Nodup
  holds : ∀ p ∈ s.outstanding, s.archive.slots p.1 = p.2
  empty : ∀ idx, idx ∉ s.outstanding.map Prod.fst → s.archive.slots idx = empty_value
  values : ∀ p ∈ s.outstanding, p.2 ≠ empty_value
  pending : ∀ t value start i, s.pc t = .inserting value start i → value ≠ empty_value

theorem exists_lt_not_mem {l : List Nat} {n : Nat} (hlen : l.length < n) : ∃ x < n, x ∉ l := by
  by_contra hall
  push Not at hall
  have hsub : Finset.range n ⊆ l.toFinset := fun x hx =>
    List.mem_toFinset.mpr (hall x (Finset.mem_range.mp hx))
  have hcard := Finset.card_le_card hsub
  rw [Finset.card_range] at hcard
  have := List.toFinset_card_le l
  omega

section Inv

variable {b : Nat} {s : State T}

omit [DecidableEq T] in
theorem init_inv (b : Nat) : Inv b (State.init b : State T) where
  tag_bits_eq := rfl
  tags_lt _ h := by cases h
  outstanding_sub _ h := by cases h
  nodup := List.nodup_nil
  holds _ h := by cases h
  empty _ _ := rfl
  values _ h := by cases h
  pending _ _ _ _ h := by cases h

omit [DecidableEq T] in
/-- An outstanding tag's slot is not empty, so a slot that is empty is no outstanding tag. -/
theorem Inv.not_mem_of_empty (h : Inv b s) {idx : Nat} (hidx : s.archive.slots idx = empty_value) :
    idx ∉ s.outstanding.map Prod.fst := by
  intro hmem
  obtain ⟨p, hp, rfl⟩ := List.mem_map.mp hmem
  exact h.values p hp (h.holds p hp ▸ hidx)

theorem Inv.of_insert_begin (h : Inv b s) {t : T} {value : Nat} (hv : value ≠ empty_value) :
    Inv b { s with
      archive := s.archive.fetch_start.2
      pc := Function.update s.pc t (.inserting value s.archive.fetch_start.1 0) } :=
  { h with
    pending := fun t' value' start i hpc => by
      by_cases ht : t' = t
      · subst ht
        dsimp only at hpc
        rw [Function.update_self, Pc.inserting.injEq] at hpc
        exact hpc.1 ▸ hv
      · dsimp only at hpc
        rw [Function.update_of_ne ht] at hpc
        exact h.pending t' value' start i hpc }

theorem Inv.of_insert_fail (h : Inv b s) {t : T} {value start i : Nat}
    (hpc : s.pc t = .inserting value start i) :
    Inv b { s with pc := Function.update s.pc t (.inserting value start (i + 1)) } :=
  { h with
    pending := fun t' value' start' i' hpc' => by
      by_cases ht : t' = t
      · subst ht
        dsimp only at hpc'
        rw [Function.update_self, Pc.inserting.injEq] at hpc'
        exact hpc'.1 ▸ h.pending t' value start i hpc
      · dsimp only at hpc'
        rw [Function.update_of_ne ht] at hpc'
        exact h.pending t' value' start' i' hpc' }

/-- A `compare_exchange` that fills slot `idx` returns it as an outstanding tag. -/
theorem Inv.of_insert_cas (h : Inv b s) {t : T} {value start i : Nat}
    (hpc : s.pc t = .inserting value start i) {a : imm_tag_archive_t}
    (hcas : s.archive.cas (s.archive.slot_at start i) value = some a) :
    Inv b { archive := a
            pc := Function.update s.pc t .idle
            outstanding := s.outstanding ++ [(s.archive.slot_at start i, value)]
            inserted := s.inserted ++ [(s.archive.slot_at start i, value)] } := by
  obtain ⟨hempty, rfl⟩ := cas_eq_some hcas
  have hnot := h.not_mem_of_empty hempty
  have hv := h.pending t value start i hpc
  have hlt : s.archive.slot_at start i < 2 ^ b := h.tag_bits_eq ▸ slot_at_lt i
  refine
    { tag_bits_eq := h.tag_bits_eq
      tags_lt := fun p hp => ?_
      outstanding_sub := fun p hp => ?_
      nodup := ?_
      holds := fun p hp => ?_
      empty := fun idx hidx => ?_
      values := fun p hp => ?_
      pending := fun t' value' start' i' hpc' => ?_ }
  · rcases List.mem_append.mp hp with hp | hp
    · exact h.tags_lt p hp
    · rw [List.mem_singleton.mp hp]
      exact hlt
  · rcases List.mem_append.mp hp with hp | hp
    · exact List.mem_append_left _ (h.outstanding_sub p hp)
    · exact List.mem_append_right _ hp
  · exact Machine.keys_append_nodup h.nodup hnot
  · rcases List.mem_append.mp hp with hp | hp
    · have hne : p.1 ≠ s.archive.slot_at start i := fun heq =>
        hnot (heq ▸ List.mem_map_of_mem hp)
      show Function.update s.archive.slots _ value p.1 = p.2
      rw [Function.update_of_ne hne]
      exact h.holds p hp
    · rw [List.mem_singleton.mp hp]
      exact Function.update_self _ _ _
  · rw [List.map_append, List.map_singleton, List.mem_append, List.mem_singleton,
      not_or] at hidx
    show Function.update s.archive.slots _ value idx = empty_value
    rw [Function.update_of_ne hidx.2]
    exact h.empty idx hidx.1
  · rcases List.mem_append.mp hp with hp | hp
    · exact h.values p hp
    · rw [List.mem_singleton.mp hp]
      exact hv
  · dsimp only at hpc'
    by_cases ht : t' = t
    · subst ht
      rw [Function.update_self] at hpc'
      cases hpc'
    · rw [Function.update_of_ne ht] at hpc'
      exact h.pending t' value' start' i' hpc'

omit [DecidableEq T] in
/-- The `exchange` of `remove` empties the slot of an outstanding tag. -/
theorem Inv.of_remove (h : Inv b s) (tag : Nat) :
    Inv b { s with
      archive := (s.archive.remove tag).2
      outstanding := s.outstanding.filter fun p => p.1 != tag } := by
  have hsub : (s.outstanding.filter fun p => p.1 != tag) ⊆ s.outstanding :=
    (List.filter_sublist).subset
  refine
    { h with
      outstanding_sub := fun p hp => h.outstanding_sub p (hsub hp)
      nodup := h.nodup.sublist (List.filter_sublist.map _)
      holds := fun p hp => ?_
      empty := fun idx hidx => ?_
      values := fun p hp => h.values p (hsub hp) }
  · have hne : p.1 ≠ tag := by simpa using (List.mem_filter.mp hp).2
    show Function.update s.archive.slots tag empty_value p.1 = p.2
    rw [Function.update_of_ne hne]
    exact h.holds p (hsub hp)
  · show Function.update s.archive.slots tag empty_value idx = empty_value
    by_cases hidx' : idx = tag
    · rw [hidx', Function.update_self]
    · rw [Function.update_of_ne hidx']
      refine h.empty idx fun hmem => hidx ?_
      obtain ⟨p, hp, rfl⟩ := List.mem_map.mp hmem
      exact List.mem_map_of_mem (List.mem_filter.mpr ⟨hp, by simpa using hidx'⟩)

theorem Inv.of_step (h : Inv b s) {a : Action T} {s' : State T} (hs : step s a = some s') :
    Inv b s' := by
  cases a with
  | insert_begin t value =>
    simp only [step] at hs
    split at hs
    · split at hs
      · cases hs
      · rename_i hv
        cases hs
        exact h.of_insert_begin hv
    · cases hs
  | insert_try t =>
    simp only [step] at hs
    split at hs
    · rename_i value start i hpc
      split at hs
      · split at hs
        · rename_i a hcas
          cases hs
          exact h.of_insert_cas hpc hcas
        · cases hs
          exact h.of_insert_fail hpc
      · cases hs
    · cases hs
  | remove t tag =>
    simp only [step] at hs
    split at hs
    · split at hs
      · cases hs
        exact h.of_remove tag
      · cases hs
    · cases hs

theorem Reachable.inv (hs : Reachable b s) : Inv b s := by
  refine Machine.Reachable.induction_inv ?_ ?_ hs
  · rintro _ rfl
    exact init_inv b
  · rintro s s' h ⟨a, ha⟩
    exact h.of_step ha

omit [DecidableEq T] in
/-- While fewer than `2 ^ tag_bits` entries are outstanding some slot is empty, so an insert
run alone finds one. -/
theorem Inv.insert_isSome (h : Inv b s) (hlen : s.outstanding.length < 2 ^ b) (value : Nat) :
    (s.archive.insert value).isSome := by
  have hkeys : (s.outstanding.map Prod.fst).length < s.archive.size := by
    rw [List.length_map, size, h.tag_bits_eq]
    exact hlen
  obtain ⟨idx, hidx, hnot⟩ := exists_lt_not_mem hkeys
  exact imm_tag_archive_t.insert_isSome ⟨idx, hidx, h.empty idx hnot⟩

end Inv

/-- The tags an archive of `tag_bits` bits hands out are below `2 ^ tag_bits` and no two
outstanding entries share one; `remove` of an outstanding tag returns the value its insert stored,
which is not the empty value its assertion rejects, and empties the slot; an insert run alone succeeds while fewer than `2 ^ tag_bits` entries are
outstanding; and in writeimm mode the FIN of a receiver whose key is an outstanding tag carries
that tag, whose `remove` returns the stored receive context. -/
theorem imm_tag_archive_correct {b : Nat} {s : State T} (hs : Reachable b s) :
    (∀ p ∈ s.inserted, p.1 < 2 ^ b) ∧
    (s.outstanding.map Prod.fst).Nodup ∧
    (∀ p ∈ s.outstanding, p ∈ s.inserted ∧ (s.archive.remove p.1).1 = p.2 ∧
      p.2 ≠ empty_value ∧ (s.archive.remove p.1).2.slots p.1 = empty_value) ∧
    (s.outstanding.length < 2 ^ b → ∀ value, (s.archive.insert value).isSome) ∧
    (∀ c : Rendezvous.Config, c.use_writeimm = true → c.tag_bits = b →
      ∀ p ∈ s.outstanding, c.recv_ctx_or_key = p.1 →
        progress_remote_write s.archive.tag_bits (writeimm_data c) = .fin p.1 ∧
          (s.archive.remove p.1).1 = p.2) := by
  have h := hs.inv
  refine ⟨h.tags_lt, h.nodup,
    fun p hp => ⟨h.outstanding_sub p hp, h.holds p hp, h.values p hp, Function.update_self ..⟩,
    h.insert_isSome, fun c hw hbits p hp hkey => ⟨?_, h.holds p hp⟩⟩
  rw [h.tag_bits_eq, ← hbits, ← hkey]
  exact progress_remote_write_writeimm_data c hw

theorem imm_tag_archive_correct_insert :
    let s := ([.insert_begin 0 5, .insert_try 0].foldlM step
      (State.init 1 : State (Fin 1))).getD (State.init 1)
    Reachable 1 s ∧
      ((∀ p ∈ s.inserted, p.1 < 2 ^ 1) ∧
      (s.outstanding.map Prod.fst).Nodup ∧
      (∀ p ∈ s.outstanding, p ∈ s.inserted ∧ (s.archive.remove p.1).1 = p.2 ∧
        p.2 ≠ empty_value ∧ (s.archive.remove p.1).2.slots p.1 = empty_value) ∧
      (s.outstanding.length < 2 ^ 1 → ∀ value, (s.archive.insert value).isSome) ∧
      (∀ c : Rendezvous.Config, c.use_writeimm = true → c.tag_bits = 1 →
        ∀ p ∈ s.outstanding, c.recv_ctx_or_key = p.1 →
          progress_remote_write s.archive.tag_bits (writeimm_data c) = .fin p.1 ∧
            (s.archive.remove p.1).1 = p.2)) :=
  have hs : Reachable 1 (([.insert_begin 0 5, .insert_try 0].foldlM step
      (State.init 1 : State (Fin 1))).getD (State.init 1)) :=
    Machine.Reachable.of_foldlM (.init rfl) [.insert_begin 0 5, .insert_try 0] rfl
  ⟨hs, imm_tag_archive_correct hs⟩

/-- **An insert run alone completes.** From every reachable state with fewer than `2 ^ b`
entries outstanding, a thread between calls that inserts a value other than the empty one while
no other thread moves finishes after finitely many tries, with the tag and the archive that the
sequential `insert` computes; the tag is below `2 ^ b` and the entry is outstanding after it. -/
theorem insert_alone_completes {b : Nat} {s : State T} (hs : Reachable b s) {t : T}
    (hpc : s.pc t = .idle) {value : Nat} (hv : value ≠ empty_value)
    (hlen : s.outstanding.length < 2 ^ b) :
    ∃ tag a', s.archive.insert value = some (tag, a') ∧ tag < 2 ^ b ∧
      ∃ k, (Action.insert_begin t value :: List.replicate k (Action.insert_try t)).foldlM step s =
        some ⟨a', s.pc, s.outstanding ++ [(tag, value)], s.inserted ++ [(tag, value)]⟩ := by
  have h := hs.inv
  obtain ⟨⟨tag, a'⟩, hins⟩ := Option.isSome_iff_exists.mp (h.insert_isSome hlen value)
  have hlt : tag < 2 ^ b := by
    have := (insert_eq_some hins).1
    rwa [size, h.tag_bits_eq] at this
  exact ⟨tag, a', hins, hlt, insert_steps hpc hv hins⟩

/-- Thread 0 inserts 5 into an archive of two slots; thread 1 then inserts 7 alone and gets the
other slot. -/
theorem insert_alone_completes_second :
    let s := ([.insert_begin 0 5, .insert_try 0].foldlM step
      (State.init 1 : State (Fin 2))).getD (State.init 1)
    Reachable 1 s ∧ s.outstanding = [(0, 5)] ∧ (s.archive.insert 7).map Prod.fst = some 1 ∧
      ∃ tag a', s.archive.insert 7 = some (tag, a') ∧ tag < 2 ^ 1 ∧
        ∃ k, (Action.insert_begin 1 7 :: List.replicate k (Action.insert_try 1)).foldlM step s =
          some ⟨a', s.pc, s.outstanding ++ [(tag, 7)], s.inserted ++ [(tag, 7)]⟩ :=
  have h0 : Reachable 1 (State.init 1 : State (Fin 2)) := .init rfl
  have hs : Reachable 1 (([.insert_begin 0 5, .insert_try 0].foldlM step
      (State.init 1 : State (Fin 2))).getD (State.init 1)) :=
    Machine.Reachable.of_foldlM_isSome h0 [.insert_begin 0 5, .insert_try 0] (by decide)
  ⟨hs, by decide, by decide, insert_alone_completes hs rfl (by decide) (by decide)⟩

end Lci.ImmTagArchive
