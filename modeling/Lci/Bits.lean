import Mathlib

/-! Bit fields of a 32-bit word and the little-endian bytes of an integer. `set_bits32` and
`get_bits32` are the helpers of `util/misc.hpp` that every immediate-data word of the library is
packed and unpacked with; `bytesLE` and `ofBytesLE` are what `memcpy` of an integer into a packet
payload, and back, does on a little-endian machine. The bit-level description of both bit-field
helpers (`set_bits32_getLsbD`, `get_bits32_getLsbD`) is the one fact every later lemma is read
from: a field reads back what was written to it, fields that do not overlap do not disturb each
other, and a field of a word built from zero reads as zero outside what was written. -/

namespace Lci.Bits

/-- `set_bits32`: the `width` bits of `flag` at `offset` replaced by those of `val`. The mask
`(1UL << width) - 1` is computed in 64 bits and truncated to 32. -/
def set_bits32 (flag val : BitVec 32) (width offset : Nat) : BitVec 32 :=
  let val_mask : BitVec 32 := BitVec.ofNat 32 (2 ^ width - 1)
  let flag_mask := val_mask <<< offset
  (flag &&& ~~~flag_mask) ||| ((val &&& val_mask) <<< offset)

/-- `get_bits32`: the `width` bits of `flag` at `offset`. -/
def get_bits32 (flag : BitVec 32) (width offset : Nat) : BitVec 32 :=
  (flag >>> offset) &&& BitVec.ofNat 32 (2 ^ width - 1)

theorem mask_getLsbD (width i : Nat) :
    (BitVec.ofNat 32 (2 ^ width - 1)).getLsbD i = (decide (i < 32) && decide (i < width)) := by
  rw [BitVec.getLsbD_ofNat, Nat.testBit_two_pow_sub_one]

theorem set_bits32_getLsbD (flag val : BitVec 32) (width offset i : Nat) :
    (set_bits32 flag val width offset).getLsbD i =
      if offset ≤ i ∧ i < offset + width then decide (i < 32) && val.getLsbD (i - offset)
      else flag.getLsbD i := by
  simp only [set_bits32, BitVec.getLsbD_or, BitVec.getLsbD_and, BitVec.getLsbD_not,
    BitVec.getLsbD_shiftLeft, mask_getLsbD]
  by_cases h : offset ≤ i ∧ i < offset + width
  · rw [if_pos h]
    by_cases hi : i < 32
    · have h1 : i - offset < 32 := by omega
      have h2 : i - offset < width := by omega
      simp [hi, h1, h2, Nat.not_lt.mpr h.1]
    · simp [hi, BitVec.getLsbD_of_ge flag i (by omega)]
  · rw [if_neg h]
    by_cases hi : i < 32
    · by_cases h1 : i < offset
      · simp [hi, h1]
      · have h2 : ¬ i - offset < width := by omega
        simp [hi, h1, h2]
    · simp [hi, BitVec.getLsbD_of_ge flag i (by omega)]

theorem get_bits32_getLsbD (flag : BitVec 32) (width offset i : Nat) :
    (get_bits32 flag width offset).getLsbD i =
      (decide (i < 32) && decide (i < width) && flag.getLsbD (offset + i)) := by
  simp only [get_bits32, BitVec.getLsbD_and, BitVec.getLsbD_ushiftRight, mask_getLsbD]
  cases flag.getLsbD (offset + i) <;> simp

theorem getLsbD_of_lt_two_pow {val : BitVec 32} {width i : Nat} (hv : val.toNat < 2 ^ width)
    (hi : width ≤ i) : val.getLsbD i = false := by
  rw [← BitVec.testBit_toNat]
  exact Nat.testBit_lt_two_pow (lt_of_lt_of_le hv (Nat.pow_le_pow_right (by norm_num) hi))

/-- **Fields that do not overlap do not disturb each other.** -/
theorem get_set_bits32_of_disjoint (flag val : BitVec 32) {width offset width' offset' : Nat}
    (hd : offset' + width' ≤ offset ∨ offset + width ≤ offset') :
    get_bits32 (set_bits32 flag val width offset) width' offset' = get_bits32 flag width' offset' := by
  apply BitVec.eq_of_getLsbD_eq
  intro i hi
  rw [get_bits32_getLsbD, get_bits32_getLsbD, set_bits32_getLsbD]
  by_cases h : i < width'
  · have hout : ¬ (offset ≤ offset' + i ∧ offset' + i < offset + width) := by omega
    rw [if_neg hout]
  · simp [h]

/-- A field written with `width` bits and read with `width' ≥ width` bits reads back the value
when the word has zero bits between the two widths. -/
theorem get_set_bits32_wide (flag val : BitVec 32) {width width' offset : Nat}
    (hw : width ≤ width') (hfit : offset + width' ≤ 32) (hv : val.toNat < 2 ^ width)
    (hz : ∀ i, offset + width ≤ i → i < offset + width' → flag.getLsbD i = false) :
    get_bits32 (set_bits32 flag val width offset) width' offset = val := by
  apply BitVec.eq_of_getLsbD_eq
  intro i hi
  rw [get_bits32_getLsbD, set_bits32_getLsbD]
  by_cases h : i < width
  · have hin : offset ≤ offset + i ∧ offset + i < offset + width := by omega
    simp [hin, hi, show i < width' by omega, show offset + i < 32 by omega]
  · have hout : ¬ (offset ≤ offset + i ∧ offset + i < offset + width) := by omega
    rw [if_neg hout, getLsbD_of_lt_two_pow hv (Nat.not_lt.mp h)]
    by_cases h' : i < width'
    · simp [hz (offset + i) (by omega) (by omega)]
    · simp [h']

/-- **A field reads back what was written to it**, when it fits the word and the value fits the
field. -/
theorem get_set_bits32 (flag val : BitVec 32) {width offset : Nat} (hw : offset + width ≤ 32)
    (hv : val.toNat < 2 ^ width) :
    get_bits32 (set_bits32 flag val width offset) width offset = val :=
  get_set_bits32_wide flag val le_rfl hw hv fun _ h1 h2 => absurd h2 (Nat.not_lt.mpr h1)

@[simp] theorem get_bits32_zero (width offset : Nat) : get_bits32 0 width offset = 0 := by
  apply BitVec.eq_of_getLsbD_eq
  intro i _
  simp [get_bits32_getLsbD]

/-! ### Little-endian bytes -/

/-- The `n` little-endian bytes of `x`: what `memcpy` of an `n`-byte integer writes. -/
def bytesLE : Nat → Nat → List UInt8
  | 0, _ => []
  | n + 1, x => UInt8.ofNat (x % 256) :: bytesLE n (x / 256)

/-- The integer whose little-endian bytes are `bs`: what `memcpy` of them into an integer reads. -/
def ofBytesLE : List UInt8 → Nat
  | [] => 0
  | b :: bs => b.toNat + 256 * ofBytesLE bs

@[simp] theorem bytesLE_length (n x : Nat) : (bytesLE n x).length = n := by
  induction n generalizing x with
  | zero => rfl
  | succ n ih => simp [bytesLE, ih]

theorem ofBytesLE_bytesLE (n x : Nat) : ofBytesLE (bytesLE n x) = x % 256 ^ n := by
  induction n generalizing x with
  | zero => simp [bytesLE, ofBytesLE, Nat.mod_one]
  | succ n ih =>
      have hb : (UInt8.ofNat (x % 256)).toNat = x % 256 := by
        rw [UInt8.toNat_ofNat', Nat.mod_mod_of_dvd _ (by norm_num)]
      rw [bytesLE, ofBytesLE, ih, hb, pow_succ', Nat.mod_mul]

end Lci.Bits
