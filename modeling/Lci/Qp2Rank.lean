import Mathlib
import Lci.Machine

/-! The map from a verbs queue pair's number to its peer's rank and send-slot counter
(`qp2rank_map_t`, `src/network/ibv`). `rebuild_locked` searches, from the rank count up, for the
first modulus under which the registered QP numbers fall into distinct table slots, seeing a
collision as a slot whose entry already has its counter; `get_entry` reads the slot of
`qp_num % mod`. `add_qps` and `remove_qps` change the list of entries and rebuild from all of
it. -/

namespace Lci.Qp2Rank

def INT32_MAX : Nat := 2 ^ 31 - 1

/-- `entry_t`: the peer's rank and its slot counter, the counter a pointer into a vector given by
its id and index. -/
structure entry_t where
  rank : Int
  slots : Option (Nat × Nat)
  deriving DecidableEq, Repr

instance : Inhabited entry_t := ⟨⟨-1, none⟩⟩

structure snapshot_t where
  mod : Nat
  table : List entry_t
  deriving DecidableEq, Repr

/-- `qp2rank_map_t`: the registered `(qp_num, entry)` pairs and the current snapshot, null until
the first rebuild. -/
structure qp2rank_map_t where
  qp_entries : List (UInt32 × entry_t)
  current_snapshot : Option snapshot_t

/-- The table slot of a QP number under a modulus. -/
def key (mod : Nat) (qp_entry : UInt32 × entry_t) : Nat := qp_entry.1.toNat % mod

/-- One turn of the inner loop of `rebuild_locked`: the entry goes to slot `qp_num % mod`, or the
attempt fails if that slot's entry already has a counter. -/
def place_step (mod : Nat) (table : List entry_t) (qp_entry : UInt32 × entry_t) :
    Option (List entry_t) :=
  if (table.getD (key mod qp_entry) default).slots.isSome then none
  else some (table.set (key mod qp_entry) qp_entry.2)

/-- The inner loop of `rebuild_locked` for one modulus, from a cleared table. -/
def place (qp_entries : List (UInt32 × entry_t)) (mod : Nat) : Option (List entry_t) :=
  qp_entries.foldlM (place_step mod) (List.replicate mod default)

/-- The `while (mod < INT32_MAX)` loop of `rebuild_locked` from `mod`, for at most `fuel` more
moduli: the first modulus whose attempt succeeds, and its table; `none` when the loop runs out
at `INT32_MAX` and the assertion after it fires. -/
def search (qp_entries : List (UInt32 × entry_t)) : Nat → Nat → Option (Nat × List entry_t)
  | 0, _ => none
  | fuel + 1, mod =>
    if mod < INT32_MAX then
      match place qp_entries mod with
      | some table => some (mod, table)
      | none => search qp_entries fuel (mod + 1)
    else none

/-- `rebuild_locked`, `rank_n` being `get_rank_n()`: the new snapshot, or `none` when
`LCI_Assert(mod != INT32_MAX)` fires. -/
def rebuild_locked (rank_n : Int) (qp_entries : List (UInt32 × entry_t)) : Option snapshot_t :=
  if qp_entries = [] then some ⟨1, [default]⟩
  else (search qp_entries INT32_MAX (max rank_n 1).toNat).map fun r => ⟨r.1, r.2⟩

def get_entry (snapshot : snapshot_t) (qp_num : UInt32) : entry_t :=
  if snapshot.table.isEmpty then default
  else
    let idx := qp_num.toNat % snapshot.mod
    if idx < snapshot.table.length then snapshot.table.getD idx default else default

/-- The entries `add_qps` appends: the `i`th QP for rank `i`, with the `i`th counter of the
vector `qp_slots`. -/
def new_entries (qps : List UInt32) (qp_slots : Nat) : List (UInt32 × entry_t) :=
  qps.zipIdx.map fun p => (p.1, ⟨p.2, some (qp_slots, p.2)⟩)

/-- `add_qps(qps, qp_slots)`, QPs by their numbers and `qp_slots` null as `none`. -/
def add_qps (rank_n : Int) (m : qp2rank_map_t) (qps : List UInt32) (qp_slots : Option Nat) :
    Option qp2rank_map_t :=
  match qp_slots with
  | none => some m
  | some slots =>
    if qps = [] then some m
    else
      let qp_entries := m.qp_entries ++ new_entries qps slots
      (rebuild_locked rank_n qp_entries).map fun snapshot => ⟨qp_entries, some snapshot⟩

/-- `remove_qps(qps)`: each QP's entries are erased in turn (`std::remove_if`), then the map is
rebuilt. -/
def remove_qps (rank_n : Int) (m : qp2rank_map_t) (qps : List UInt32) : Option qp2rank_map_t :=
  if qps = [] then some m
  else if m.qp_entries = [] then some m
  else
    let qp_entries := qps.foldl (fun es qp_num => es.filter fun p => p.1 != qp_num) m.qp_entries
    (rebuild_locked rank_n qp_entries).map fun snapshot => ⟨qp_entries, some snapshot⟩

/-- A default-constructed `qp2rank_map_t`: no entries, and a null snapshot. -/
def qp2rank_map_t.init : qp2rank_map_t := ⟨[], none⟩

/-- A call on the map. -/
inductive Call
  | add_qps (qps : List UInt32) (qp_slots : Option Nat)
  | remove_qps (qps : List UInt32)

/-- One call on the map of a device of `rank_n` ranks; `none` when the assertion of
`rebuild_locked` fires. -/
def step (rank_n : Int) (m : qp2rank_map_t) : Call → Option qp2rank_map_t
  | .add_qps qps qp_slots => add_qps rank_n m qps qp_slots
  | .remove_qps qps => remove_qps rank_n m qps

/-- The maps a default-constructed map reaches by calls that return. -/
def Reachable (rank_n : Int) : qp2rank_map_t → Prop :=
  Machine.Reachable (· = qp2rank_map_t.init) fun m m' => ∃ c, step rank_n m c = some m'

/-- The snapshot is the one `rebuild_locked` builds from the entries; a map never rebuilt has
neither. -/
def Consistent (rank_n : Int) (m : qp2rank_map_t) : Prop :=
  (m.current_snapshot = none ∧ m.qp_entries = []) ∨
    m.current_snapshot = rebuild_locked rank_n m.qp_entries

/-- `qp_num % mod` takes distinct values on the entries. -/
def InjMod (qp_entries : List (UInt32 × entry_t)) (mod : Nat) : Prop :=
  (qp_entries.map (key mod)).Nodup

instance (qp_entries : List (UInt32 × entry_t)) : DecidablePred (InjMod qp_entries) :=
  fun _ => inferInstanceAs (Decidable (List.Nodup _))

/-! ### One attempt of the search -/

section Place

variable {mod : Nat}

theorem getD_set_of_ne {l : List entry_t} {i j : Nat} {a : entry_t} (h : i ≠ j) :
    (l.set i a).getD j default = l.getD j default := by
  simp [List.getD_eq_getElem?_getD, List.getElem?_set_ne h]

theorem getD_set_self {l : List entry_t} {i : Nat} {a : entry_t} (h : i < l.length) :
    (l.set i a).getD i default = a := by
  simp [List.getD_eq_getElem?_getD, List.getElem?_set_self h]

/-- A run of the inner loop over a table that succeeds: the keys were distinct and their slots
empty, each entry now sits at its key, and every other slot is as it was. -/
theorem foldlM_place_step_eq_some (hm : 0 < mod) {entries : List (UInt32 × entry_t)}
    (hslots : ∀ p ∈ entries, p.2.slots.isSome) {table t : List entry_t}
    (hlen : table.length = mod) (h : entries.foldlM (place_step mod) table = some t) :
    t.length = mod ∧ (entries.map (key mod)).Nodup ∧
      (∀ p ∈ entries, (table.getD (key mod p) default).slots = none ∧
        t.getD (key mod p) default = p.2) ∧
      ∀ k, k ∉ entries.map (key mod) → t.getD k default = table.getD k default := by
  induction entries generalizing table with
  | nil =>
    cases h
    simp [hlen]
  | cons p es ih =>
    rw [List.foldlM_cons] at h
    have hkey : key mod p < table.length := by
      rw [hlen]
      exact Nat.mod_lt _ hm
    cases hp : place_step mod table p with
    | none => simp [hp] at h
    | some table' =>
      simp only [hp, Option.bind_eq_bind, Option.bind_some] at h
      have hfree : (table.getD (key mod p) default).slots = none ∧
          table' = table.set (key mod p) p.2 := by
        simp only [place_step] at hp
        split_ifs at hp with hocc
        cases hp
        exact ⟨Option.not_isSome_iff_eq_none.mp hocc, rfl⟩
      have hlen' : table'.length = mod := by rw [hfree.2, List.length_set, hlen]
      obtain ⟨ht, hnodup, hes, hother⟩ := ih (fun q hq => hslots q (.tail _ hq)) hlen' h
      -- its key is not used again: from now on that slot holds a counter
      have hnot : key mod p ∉ es.map (key mod) := by
        intro hmem
        obtain ⟨q, hq, hqk⟩ := List.mem_map.mp hmem
        have hq' := (hes q hq).1
        rw [hqk, hfree.2, getD_set_self hkey] at hq'
        have := hslots p List.mem_cons_self
        simp [hq'] at this
      refine ⟨ht, List.nodup_cons.mpr ⟨hnot, hnodup⟩, ?_, ?_⟩
      · intro q hq
        rcases List.mem_cons.mp hq with rfl | hq
        · exact ⟨hfree.1, by rw [hother _ hnot, hfree.2, getD_set_self hkey]⟩
        · have hne : key mod p ≠ key mod q := fun h => hnot (h ▸ List.mem_map_of_mem hq)
          have := hes q hq
          rw [hfree.2, getD_set_of_ne hne] at this
          exact this
      · intro k hk
        simp only [List.map_cons, List.mem_cons, not_or] at hk
        rw [hother k hk.2, hfree.2, getD_set_of_ne (Ne.symm hk.1)]

theorem foldlM_place_step_isSome {entries : List (UInt32 × entry_t)}
    {table : List entry_t} (hlen : table.length = mod) (hnodup : (entries.map (key mod)).Nodup)
    (hfree : ∀ p ∈ entries, (table.getD (key mod p) default).slots = none) :
    ∃ t, entries.foldlM (place_step mod) table = some t := by
  induction entries generalizing table with
  | nil => exact ⟨table, rfl⟩
  | cons p es ih =>
    obtain ⟨hnot, hnodup'⟩ := List.nodup_cons.mp hnodup
    have hstep : place_step mod table p = some (table.set (key mod p) p.2) := by
      rw [place_step, if_neg (by rw [hfree p List.mem_cons_self]; simp)]
    rw [List.foldlM_cons, hstep]
    refine ih (by rw [List.length_set, hlen]) hnodup' fun q hq => ?_
    have hne : key mod p ≠ key mod q := fun h => hnot (h ▸ List.mem_map_of_mem hq)
    rw [getD_set_of_ne hne]
    exact hfree q (.tail _ hq)

theorem getD_replicate_default (k : Nat) :
    (List.replicate mod (default : entry_t)).getD k default = default := by
  rcases Nat.lt_or_ge k mod with hk | hk
  · exact List.getD_replicate _ hk
  · exact List.getD_eq_default _ _ (by simpa using hk)

theorem place_isSome_iff (hm : 0 < mod) {entries : List (UInt32 × entry_t)}
    (hslots : ∀ p ∈ entries, p.2.slots.isSome) :
    (place entries mod).isSome ↔ InjMod entries mod := by
  constructor
  · intro h
    obtain ⟨t, ht⟩ := Option.isSome_iff_exists.mp h
    exact (foldlM_place_step_eq_some hm hslots List.length_replicate ht).2.1
  · intro h
    obtain ⟨t, ht⟩ := foldlM_place_step_isSome List.length_replicate h fun p _ => by
      rw [getD_replicate_default]
      rfl
    exact Option.isSome_iff_exists.mpr ⟨t, ht⟩

theorem place_eq_some (hm : 0 < mod) {entries : List (UInt32 × entry_t)}
    (hslots : ∀ p ∈ entries, p.2.slots.isSome) {t : List entry_t}
    (h : place entries mod = some t) :
    t.length = mod ∧ ∀ p ∈ entries, t.getD (key mod p) default = p.2 := by
  obtain ⟨hlen, -, hentries, -⟩ := foldlM_place_step_eq_some hm hslots List.length_replicate h
  exact ⟨hlen, fun p hp => (hentries p hp).2⟩

end Place

/-! ### The search and the rebuild -/

section Rebuild

variable {entries : List (UInt32 × entry_t)}

theorem injMod_of_lt (hnodup : (entries.map Prod.fst).Nodup) {m : Nat}
    (h : ∀ p ∈ entries, p.1.toNat < m) : InjMod entries m := by
  have hkeys : entries.map (key m) = (entries.map Prod.fst).map UInt32.toNat := by
    rw [List.map_map]
    exact List.map_congr_left fun p hp => Nat.mod_eq_of_lt (h p hp)
  rw [InjMod, hkeys]
  exact hnodup.map fun _ _ h => UInt32.toNat_inj.mp h

theorem search_eq_least (hslots : ∀ p ∈ entries, p.2.slots.isSome) {m : Nat}
    (hinj : InjMod entries m) (hlt : m < INT32_MAX) :
    ∀ fuel mod, 0 < mod → mod ≤ m → (∀ m', mod ≤ m' → m' < m → ¬ InjMod entries m') →
      m < mod + fuel → ∃ t, search entries fuel mod = some (m, t) ∧ place entries m = some t := by
  intro fuel
  induction fuel with
  | zero => intro mod _ hle _ hfuel; omega
  | succ fuel ih =>
    intro mod hpos hle hmin hfuel
    rw [search, if_pos (by omega)]
    rcases Nat.eq_or_lt_of_le hle with rfl | hlt'
    · -- this modulus separates the keys: the attempt succeeds
      obtain ⟨t, ht⟩ := Option.isSome_iff_exists.mp ((place_isSome_iff hpos hslots).mpr hinj)
      exact ⟨t, by rw [ht], ht⟩
    · -- it does not: the attempt fails and the loop goes on with the next modulus
      have hnone : place entries mod = none :=
        Option.not_isSome_iff_eq_none.mp fun h =>
          hmin mod le_rfl hlt' ((place_isSome_iff hpos hslots).mp h)
      rw [hnone]
      exact ih (mod + 1) (by omega) hlt' (fun m' h1 h2 => hmin m' (by omega) h2) (by omega)

/-- **Rebuild.** For registered entries with counters and distinct 24-bit QP numbers, and a rank
count below `INT32_MAX`, `rebuild_locked` does not fail its assertion: the modulus is the least
from `max(rank_n, 1)` on under which the QP numbers fall into distinct slots, it is at most any
modulus from `max(rank_n, 1)` on above every QP number, and `get_entry` returns every registered
entry. -/
theorem rebuild_locked_spec (rank_n : Int) (hn : rank_n < INT32_MAX) (hne : entries ≠ [])
    (hslots : ∀ p ∈ entries, p.2.slots.isSome) (hnodup : (entries.map Prod.fst).Nodup)
    (h24 : ∀ p ∈ entries, p.1.toNat < 2 ^ 24) :
    ∃ snapshot, rebuild_locked rank_n entries = some snapshot ∧
      (max rank_n 1).toNat ≤ snapshot.mod ∧ InjMod entries snapshot.mod ∧
      (∀ m, (max rank_n 1).toNat ≤ m → m < snapshot.mod → ¬ InjMod entries m) ∧
      (∀ m, (max rank_n 1).toNat ≤ m → (∀ p ∈ entries, p.1.toNat < m) → snapshot.mod ≤ m) ∧
      ∀ p ∈ entries, get_entry snapshot p.1 = p.2 := by
  set mod := (max rank_n 1).toNat with hmod
  have hpos : 0 < mod := by omega
  have hex : ∃ m, mod ≤ m ∧ InjMod entries m :=
    ⟨max mod (2 ^ 24), le_max_left _ _,
      injMod_of_lt hnodup fun p hp => lt_of_lt_of_le (h24 p hp) (le_max_right _ _)⟩
  set m := Nat.find hex with hm
  obtain ⟨hle, hinj⟩ := Nat.find_spec hex
  have hmin : ∀ m', mod ≤ m' → m' < m → ¬ InjMod entries m' :=
    fun m' h1 h2 h3 => Nat.find_min hex h2 ⟨h1, h3⟩
  have hbound : ∀ m', mod ≤ m' → (∀ p ∈ entries, p.1.toNat < m') → m ≤ m' :=
    fun m' h1 h2 => Nat.find_min' hex ⟨h1, injMod_of_lt hnodup h2⟩
  have hlt : m < INT32_MAX := by
    have := hbound (max mod (2 ^ 24)) (le_max_left _ _)
      fun p hp => lt_of_lt_of_le (h24 p hp) (le_max_right _ _)
    have : mod < INT32_MAX := by simp only [hmod, INT32_MAX] at hn ⊢; omega
    simp only [INT32_MAX] at this ⊢
    omega
  obtain ⟨t, hsearch, hplace⟩ :=
    search_eq_least hslots hinj hlt INT32_MAX mod hpos hle hmin (by omega)
  obtain ⟨htlen, hat⟩ := place_eq_some (by omega) hslots hplace
  refine ⟨⟨m, t⟩, by rw [rebuild_locked, if_neg hne, hsearch]; rfl, hle, hinj, hmin, hbound,
    fun p hp => ?_⟩
  have hidx : p.1.toNat % m < t.length := htlen ▸ Nat.mod_lt _ (by omega)
  have htne : t.isEmpty = false := by
    cases t with
    | nil => simp at hidx
    | cons _ _ => rfl
  simp only [get_entry, htne, Bool.false_eq_true, ↓reduceIte, hidx]
  exact hat p hp

end Rebuild

/-! ### Adding and removing QPs -/

section Maps

theorem map_fst_new_entries (qps : List UInt32) (slots : Nat) :
    (new_entries qps slots).map Prod.fst = qps := by
  simp [new_entries, List.map_map, Function.comp_def]

theorem new_entries_slots {qps : List UInt32} {slots : Nat} :
    ∀ p ∈ new_entries qps slots, p.2.slots.isSome := by
  intro p hp
  obtain ⟨q, -, rfl⟩ := List.mem_map.mp hp
  rfl

theorem foldl_filter_entries (qps : List UInt32) (es : List (UInt32 × entry_t)) :
    qps.foldl (fun es qp_num => es.filter fun p => p.1 != qp_num) es =
      es.filter fun p => p.1 ∉ qps := by
  induction qps generalizing es with
  | nil => simp
  | cons q qs ih =>
    rw [List.foldl_cons, ih, List.filter_filter]
    exact List.filter_congr fun p _ => by by_cases h : p.1 = q <;> simp [h]

/-- **Add then remove.** Adding fresh QPs with their counters and removing them again leaves the
entries as they were, and every remaining QP is looked up as before. -/
theorem add_remove_restores (rank_n : Int) (hn : rank_n < INT32_MAX) {m : qp2rank_map_t}
    (hcons : Consistent rank_n m) (hslots : ∀ p ∈ m.qp_entries, p.2.slots.isSome)
    (hnodup : (m.qp_entries.map Prod.fst).Nodup) (h24 : ∀ p ∈ m.qp_entries, p.1.toNat < 2 ^ 24)
    {qps : List UInt32} (hqps : qps ≠ []) (hqnodup : qps.Nodup)
    (hfresh : ∀ q ∈ qps, q ∉ m.qp_entries.map Prod.fst) (hq24 : ∀ q ∈ qps, q.toNat < 2 ^ 24)
    (slots : Nat) :
    ∃ m1 m2, add_qps rank_n m qps (some slots) = some m1 ∧ remove_qps rank_n m1 qps = some m2 ∧
      m2.qp_entries = m.qp_entries ∧
      ∀ p ∈ m.qp_entries, m2.current_snapshot.map (get_entry · p.1) =
        m.current_snapshot.map (get_entry · p.1) := by
  set entries := m.qp_entries ++ new_entries qps slots with hentries
  have hne : entries ≠ [] := by simp [entries, new_entries, hqps]
  have hslots' : ∀ p ∈ entries, p.2.slots.isSome := by
    intro p hp
    rcases List.mem_append.mp hp with hp | hp
    · exact hslots p hp
    · exact new_entries_slots p hp
  have hnodup' : (entries.map Prod.fst).Nodup := by
    rw [List.map_append, map_fst_new_entries, List.nodup_append]
    exact ⟨hnodup, hqnodup, fun a ha b hb hab => hfresh b hb (hab ▸ ha)⟩
  have h24' : ∀ p ∈ entries, p.1.toNat < 2 ^ 24 := by
    intro p hp
    rcases List.mem_append.mp hp with hp | hp
    · exact h24 p hp
    · exact hq24 p.1 (by rw [← map_fst_new_entries qps slots]; exact List.mem_map_of_mem hp)
  obtain ⟨snapshot, hrebuild, -⟩ :=
    rebuild_locked_spec rank_n hn hne hslots' hnodup' h24'
  have hfilter : (qps.foldl (fun es qp_num => es.filter fun p => p.1 != qp_num) entries) =
      m.qp_entries := by
    rw [foldl_filter_entries, List.filter_append, List.filter_eq_self.mpr, List.filter_eq_nil_iff.mpr,
      List.append_nil]
    · intro p hp
      simpa using (map_fst_new_entries qps slots) ▸ List.mem_map_of_mem (f := Prod.fst) hp
    · intro p hp
      simpa using fun h => hfresh p.1 h (List.mem_map_of_mem hp)
  obtain ⟨snapshot', hrebuild'⟩ : ∃ snapshot', rebuild_locked rank_n m.qp_entries = some snapshot' := by
    by_cases hempty : m.qp_entries = []
    · exact ⟨_, by rw [rebuild_locked, if_pos hempty]⟩
    · obtain ⟨snapshot', h, -⟩ := rebuild_locked_spec rank_n hn hempty hslots hnodup h24
      exact ⟨snapshot', h⟩
  refine ⟨⟨entries, some snapshot⟩, ⟨m.qp_entries, some snapshot'⟩, ?_, ?_, rfl, ?_⟩
  · simp [add_qps, hqps, entries, hrebuild]
  · simp only [remove_qps, hqps, hne, if_false, hfilter, hrebuild']
    rfl
  · -- a remaining QP means the old map was rebuilt from these entries
    intro p hp
    rcases hcons with ⟨-, hempty⟩ | hsnap
    · rw [hempty] at hp
      cases hp
    · rw [hsnap, hrebuild']

end Maps

/-! ### Every run of calls -/

section Runs

variable {rank_n : Int} {m m' : qp2rank_map_t}

theorem consistent_init (rank_n : Int) : Consistent rank_n qp2rank_map_t.init := .inl ⟨rfl, rfl⟩

/-- What a call of `add_qps` that returns leaves: the map as it was, or the entries with the new
ones appended and the snapshot rebuilt from them. -/
theorem add_qps_cases {qps : List UInt32} {qp_slots : Option Nat}
    (h : add_qps rank_n m qps qp_slots = some m') :
    m' = m ∨ ∃ slots snapshot, m'.qp_entries = m.qp_entries ++ new_entries qps slots ∧
      m'.current_snapshot = some snapshot ∧ rebuild_locked rank_n m'.qp_entries = some snapshot := by
  unfold add_qps at h
  split at h
  · -- a null `qp_slots` returns at once
    exact .inl (Option.some.inj h).symm
  · rename_i slots
    split_ifs at h
    · exact .inl (Option.some.inj h).symm
    · obtain ⟨snapshot, hs, rfl⟩ := Option.map_eq_some_iff.mp h
      exact .inr ⟨slots, snapshot, rfl, rfl, hs⟩

theorem remove_qps_cases {qps : List UInt32} (h : remove_qps rank_n m qps = some m') :
    m' = m ∨ ∃ snapshot, m'.qp_entries = m.qp_entries.filter (fun p => p.1 ∉ qps) ∧
      m'.current_snapshot = some snapshot ∧ rebuild_locked rank_n m'.qp_entries = some snapshot := by
  unfold remove_qps at h
  split_ifs at h
  · exact .inl (Option.some.inj h).symm
  · exact .inl (Option.some.inj h).symm
  · obtain ⟨snapshot, hs, rfl⟩ := Option.map_eq_some_iff.mp h
    exact .inr ⟨snapshot, foldl_filter_entries qps m.qp_entries, rfl, hs⟩

theorem step_consistent {c : Call} (hcons : Consistent rank_n m) (h : step rank_n m c = some m') :
    Consistent rank_n m' := by
  have hrebuilt : ∀ snapshot, m'.current_snapshot = some snapshot →
      rebuild_locked rank_n m'.qp_entries = some snapshot → Consistent rank_n m' :=
    fun _ hsnap hs => .inr (hsnap.trans hs.symm)
  cases c with
  | add_qps qps qp_slots =>
    rcases add_qps_cases h with rfl | ⟨-, snapshot, -, hsnap, hs⟩
    · exact hcons
    · exact hrebuilt snapshot hsnap hs
  | remove_qps qps =>
    rcases remove_qps_cases h with rfl | ⟨snapshot, -, hsnap, hs⟩
    · exact hcons
    · exact hrebuilt snapshot hsnap hs

theorem step_slots {c : Call} (hslots : ∀ p ∈ m.qp_entries, p.2.slots.isSome)
    (h : step rank_n m c = some m') : ∀ p ∈ m'.qp_entries, p.2.slots.isSome := by
  cases c with
  | add_qps qps qp_slots =>
    rcases add_qps_cases h with rfl | ⟨slots, -, hentries, -⟩
    · exact hslots
    · intro p hp
      rw [hentries] at hp
      rcases List.mem_append.mp hp with hp | hp
      · exact hslots p hp
      · exact new_entries_slots p hp
  | remove_qps qps =>
    rcases remove_qps_cases h with rfl | ⟨-, hentries, -⟩
    · exact hslots
    · intro p hp
      rw [hentries] at hp
      exact hslots p (List.mem_filter.mp hp).1

/-- **Consistency.** Every map a default-constructed one reaches holds the snapshot
`rebuild_locked` builds from its entries, or is still empty and never rebuilt; and each of its
entries has its counter. -/
theorem reachable_consistent (hs : Reachable rank_n m) :
    Consistent rank_n m ∧ ∀ p ∈ m.qp_entries, p.2.slots.isSome :=
  @Machine.Reachable.induction_inv _ _ _
    (fun m => Consistent rank_n m ∧ ∀ p ∈ m.qp_entries, p.2.slots.isSome)
    (fun _ h => by subst h; exact ⟨consistent_init rank_n, fun _ h => nomatch h⟩)
    (fun _ _ ⟨hcons, hslots⟩ ⟨_, hc⟩ => ⟨step_consistent hcons hc, step_slots hslots hc⟩) _ hs

theorem Consistent.get_entry_eq (hn : rank_n < INT32_MAX) (hcons : Consistent rank_n m)
    (hslots : ∀ p ∈ m.qp_entries, p.2.slots.isSome) (hnodup : (m.qp_entries.map Prod.fst).Nodup)
    (h24 : ∀ p ∈ m.qp_entries, p.1.toNat < 2 ^ 24) :
    ∀ p ∈ m.qp_entries, m.current_snapshot.map (get_entry · p.1) = some p.2 := by
  intro p hp
  have hne : m.qp_entries ≠ [] := List.ne_nil_of_mem hp
  rcases hcons with ⟨-, hempty⟩ | hsnap
  · exact absurd hempty hne
  · obtain ⟨snapshot, hrebuild, -, -, -, -, hget⟩ :=
      rebuild_locked_spec rank_n hn hne hslots hnodup h24
    rw [hsnap, hrebuild, Option.map_some, hget p hp]

/-- **Lookups after any calls.** On a device of fewer than `INT32_MAX` ranks, after any sequence
of `add_qps` and `remove_qps` calls that return, while the registered QP numbers are distinct
24-bit numbers, the current snapshot returns every registered entry. -/
theorem qp2rank_lookup_after_calls (hn : rank_n < INT32_MAX) (hs : Reachable rank_n m)
    (hnodup : (m.qp_entries.map Prod.fst).Nodup) (h24 : ∀ p ∈ m.qp_entries, p.1.toNat < 2 ^ 24) :
    ∀ p ∈ m.qp_entries, m.current_snapshot.map (get_entry · p.1) = some p.2 :=
  (reachable_consistent hs).1.get_entry_eq hn (reachable_consistent hs).2 hnodup h24

/-- Two ranks register QPs 5 and 9, then QP 3 with another counter vector, and remove QP 9. -/
def three_calls : List Call := [.add_qps [5, 9] (some 0), .add_qps [3] (some 1), .remove_qps [9]]

/-- Where `three_calls` leaves a default-constructed map. -/
def three_calls_map : qp2rank_map_t :=
  (three_calls.foldlM (step 2) qp2rank_map_t.init).getD qp2rank_map_t.init

theorem qp2rank_lookup_after_calls_three :
    three_calls_map.qp_entries = [(5, ⟨0, some (0, 0)⟩), (3, ⟨0, some (1, 0)⟩)] ∧
      three_calls_map.current_snapshot.map (·.mod) = some 3 ∧
      ∀ p ∈ three_calls_map.qp_entries,
        three_calls_map.current_snapshot.map (get_entry · p.1) = some p.2 :=
  have h0 : Reachable 2 qp2rank_map_t.init := .init rfl
  have hs : Reachable 2 three_calls_map :=
    Machine.Reachable.of_foldlM_isSome h0 three_calls (by decide +kernel)
  ⟨by decide +kernel, by decide +kernel,
    qp2rank_lookup_after_calls (by decide) hs (by decide +kernel) (by decide +kernel)⟩

end Runs

/-- **qp2rank perfect hash.** For a rank count below `INT32_MAX`: for registered entries with
counters and distinct 24-bit QP numbers, `rebuild_locked` finds the least modulus from
`max(rank_n, 1)` on that separates them, no larger than any modulus from there on above every QP
number, and `get_entry` returns every registered entry; and adding fresh QPs and then removing
them restores the entries and the lookups of every remaining QP. -/
theorem qp2rank_perfect_hash (rank_n : Int) (hn : rank_n < INT32_MAX) :
    (∀ entries : List (UInt32 × entry_t), entries ≠ [] → (∀ p ∈ entries, p.2.slots.isSome) →
      (entries.map Prod.fst).Nodup → (∀ p ∈ entries, p.1.toNat < 2 ^ 24) →
      ∃ snapshot, rebuild_locked rank_n entries = some snapshot ∧
        (max rank_n 1).toNat ≤ snapshot.mod ∧ InjMod entries snapshot.mod ∧
        (∀ m, (max rank_n 1).toNat ≤ m → m < snapshot.mod → ¬ InjMod entries m) ∧
        (∀ m, (max rank_n 1).toNat ≤ m → (∀ p ∈ entries, p.1.toNat < m) → snapshot.mod ≤ m) ∧
        ∀ p ∈ entries, get_entry snapshot p.1 = p.2) ∧
    (∀ m : qp2rank_map_t, Consistent rank_n m → (∀ p ∈ m.qp_entries, p.2.slots.isSome) →
      (m.qp_entries.map Prod.fst).Nodup → (∀ p ∈ m.qp_entries, p.1.toNat < 2 ^ 24) →
      ∀ qps : List UInt32, qps ≠ [] → qps.Nodup → (∀ q ∈ qps, q ∉ m.qp_entries.map Prod.fst) →
        (∀ q ∈ qps, q.toNat < 2 ^ 24) → ∀ slots,
        ∃ m1 m2, add_qps rank_n m qps (some slots) = some m1 ∧
          remove_qps rank_n m1 qps = some m2 ∧ m2.qp_entries = m.qp_entries ∧
          ∀ p ∈ m.qp_entries, m2.current_snapshot.map (get_entry · p.1) =
            m.current_snapshot.map (get_entry · p.1)) :=
  ⟨fun _ hne hslots hnodup h24 => rebuild_locked_spec rank_n hn hne hslots hnodup h24,
    fun _ hcons hslots hnodup h24 _ hqps hqnodup hfresh hq24 slots =>
      add_remove_restores rank_n hn hcons hslots hnodup h24 hqps hqnodup hfresh hq24 slots⟩

/-- The hypothesis holds for a single rank. -/
theorem qp2rank_perfect_hash_one :
    (1 : Int) < INT32_MAX ∧
    (∀ entries : List (UInt32 × entry_t), entries ≠ [] → (∀ p ∈ entries, p.2.slots.isSome) →
      (entries.map Prod.fst).Nodup → (∀ p ∈ entries, p.1.toNat < 2 ^ 24) →
      ∃ snapshot, rebuild_locked 1 entries = some snapshot ∧
        (max (1 : Int) 1).toNat ≤ snapshot.mod ∧ InjMod entries snapshot.mod ∧
        (∀ m, (max (1 : Int) 1).toNat ≤ m → m < snapshot.mod → ¬ InjMod entries m) ∧
        (∀ m, (max (1 : Int) 1).toNat ≤ m → (∀ p ∈ entries, p.1.toNat < m) →
          snapshot.mod ≤ m) ∧
        ∀ p ∈ entries, get_entry snapshot p.1 = p.2) ∧
    (∀ m : qp2rank_map_t, Consistent 1 m → (∀ p ∈ m.qp_entries, p.2.slots.isSome) →
      (m.qp_entries.map Prod.fst).Nodup → (∀ p ∈ m.qp_entries, p.1.toNat < 2 ^ 24) →
      ∀ qps : List UInt32, qps ≠ [] → qps.Nodup → (∀ q ∈ qps, q ∉ m.qp_entries.map Prod.fst) →
        (∀ q ∈ qps, q.toNat < 2 ^ 24) → ∀ slots,
        ∃ m1 m2, add_qps 1 m qps (some slots) = some m1 ∧
          remove_qps 1 m1 qps = some m2 ∧ m2.qp_entries = m.qp_entries ∧
          ∀ p ∈ m.qp_entries, m2.current_snapshot.map (get_entry · p.1) =
            m.current_snapshot.map (get_entry · p.1)) :=
  ⟨by decide, qp2rank_perfect_hash 1 (by decide)⟩

/-- The modulus is not bounded by the largest QP number plus one: with two ranks and the single
QP 0 the search starts, and stops, at 2; and with `INT32_MAX` ranks the loop never runs and the
assertion fires. -/
theorem rebuild_locked_mod_above_max_qp :
    rebuild_locked 2 [(0, ⟨0, some (0, 0)⟩)] = some ⟨2, [⟨0, some (0, 0)⟩, default]⟩ ∧
      rebuild_locked INT32_MAX [(0, ⟨0, some (0, 0)⟩)] = none := by
  decide

end Lci.Qp2Rank
