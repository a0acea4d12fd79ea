import Mathlib

/-! Memory registration through the registration cache. With `use_reg_cache` and a valid cache,
`register_memory` of a non-empty range asks UCX's rcache for a region covering it
(`LCII_ucs_rcache_get`) and hands out the `mr_impl_t` owned by the region's entry, after writing
the caller's range and the region's base into it; `get_rmr` reads them back. UCX is not part of
the repository: its `rcache_get` is a parameter, and what the cache relies on is a hypothesis of
the theorems (`Covers`): a region covers the request it is returned for, and a request covered
by a live region gets that region back.

The record is the region's, not the caller's: a second registration inside a live region writes
its own range over the one an earlier handle reads (`register_memory_overwrites`). -/

namespace Lci.RegCache

/-- A region of UCX's registration cache: its range and the address of the `mr_impl_t` of its
entry (`rcache_entry_generic_t::mr`). -/
structure Region where
  start : Nat
  end_ : Nat
  mr : Nat
  deriving DecidableEq, Repr

/-- The fields of `mr_impl_t` that registration writes and `get_rmr` reads. -/
structure MrImpl where
  address : Nat
  size : Nat
  mr_base : Nat
  rcache_region : Option Region
  deriving DecidableEq, Repr

structure Rmr where
  base : Nat
  mr_base : Nat
  deriving DecidableEq, Repr

/-- A device with a registration cache: the state of UCX's rcache and the `mr_impl_t` records,
by address. -/
structure Device (σ : Type) where
  rcache : σ
  mrs : Nat → MrImpl

section Cache

variable {σ : Type} (rcache_get : σ → Nat → Nat → σ × Region)

/-- `RegCache::impl::get`: the entry's record, with the region, the caller's range and the
region's base written into it. -/
def get (d : Device σ) (address size : Nat) : Nat × Device σ :=
  let r := rcache_get d.rcache address size
  let m := r.2.mr
  let record : MrImpl := ⟨address, size, r.2.start, some r.2⟩
  (m, ⟨r.1, Function.update d.mrs m record⟩)

/-- `device_impl_t::register_memory` with the cache in use, for a non-empty range. -/
def register_memory (d : Device σ) (address size : Nat) : Nat × Device σ :=
  get rcache_get d address size

def get_rmr (d : Device σ) (m : Nat) : Rmr := ⟨(d.mrs m).address, (d.mrs m).mr_base⟩

/-- What the cache relies on UCX for: a region returned for a request covers it, and a request
that a region returned before covers gets that region back. -/
structure Covers : Prop where
  covers : ∀ s a n, (rcache_get s a n).2.start ≤ a ∧ a + n ≤ (rcache_get s a n).2.end_
  same : ∀ s a n a' n', (rcache_get s a n).2.start ≤ a' →
    a' + n' ≤ (rcache_get s a n).2.end_ →
    (rcache_get (rcache_get s a n).1 a' n').2 = (rcache_get s a n).2

/-- **A second registration inside a live region rewrites the first handle.** Both handles are
the region's record, which now holds the second range. -/
theorem register_memory_overwrites (hc : Covers rcache_get) (d : Device σ)
    {a1 s1 a2 s2 : Nat}
    (hin : (rcache_get d.rcache a1 s1).2.start ≤ a2)
    (hin' : a2 + s2 ≤ (rcache_get d.rcache a1 s1).2.end_) :
    let r1 := register_memory rcache_get d a1 s1
    let r2 := register_memory rcache_get r1.2 a2 s2
    r2.1 = r1.1 ∧ (get_rmr r2.2 r1.1).base = a2 ∧ (r2.2.mrs r1.1).size = s2 := by
  have hsame := hc.same d.rcache a1 s1 a2 s2 hin hin'
  refine ⟨?_, ?_, ?_⟩ <;> simp [register_memory, get, get_rmr, hsame]

end Cache

/-- A cache of page-aligned regions of 4096 bytes, in the manner of UCX's rcache: a request
inside the live region gets it back, any other one a new region, whose record is placed at the
region's start. -/
def pageCache (live : Option Region) (address size : Nat) : Option Region × Region :=
  match live with
  | some r => if r.start ≤ address ∧ address + size ≤ r.end_ then (some r, r)
      else
        let r' : Region := ⟨address / 4096 * 4096, (address + size + 4095) / 4096 * 4096,
          address / 4096 * 4096⟩
        (some r', r')
  | none =>
      let r' : Region := ⟨address / 4096 * 4096, (address + size + 4095) / 4096 * 4096,
        address / 4096 * 4096⟩
      (some r', r')

theorem pageCache_fst (live : Option Region) (address size : Nat) :
    (pageCache live address size).1 = some (pageCache live address size).2 := by
  unfold pageCache
  split
  · split <;> rfl
  · rfl

theorem pageCache_covers : Covers pageCache := by
  constructor
  · intro s a n
    unfold pageCache
    split
    · split
      · assumption
      · dsimp only
        omega
    · dsimp only
      omega
  · intro s a n a' n' h1 h2
    rw [pageCache_fst]
    generalize (pageCache s a n).2 = r at h1 h2 ⊢
    simp [pageCache, h1, h2]

/-- A page registered whole, then 16 bytes inside it: the first handle reads the second range. -/
theorem register_memory_overwrites_page :
    Covers pageCache ∧ (pageCache none 4096 4096).2.start ≤ 4112 ∧
      4112 + 16 ≤ (pageCache none 4096 4096).2.end_ ∧
      (let r1 := register_memory pageCache ⟨none, fun _ => ⟨0, 0, 0, none⟩⟩ 4096 4096
       let r2 := register_memory pageCache r1.2 4112 16
       r2.1 = r1.1 ∧ (get_rmr r2.2 r1.1).base = 4112 ∧ (r2.2.mrs r1.1).size = 16) :=
  ⟨pageCache_covers, by decide, by decide,
    register_memory_overwrites pageCache pageCache_covers ⟨none, fun _ => ⟨0, 0, 0, none⟩⟩
      (by decide) (by decide)⟩

end Lci.RegCache
