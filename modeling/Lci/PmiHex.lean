import Lci.ShmGeometry
import Lci.Codec

/-! The two hex codecs that carry binary records through PMI strings. The shared-memory transport
(src/src/shm/transport.cpp) encodes a record with `encode_pmi_value`, which writes two lowercase
digits per byte and a terminating NUL, and reads it back with `decode_pmi_value`, whose digit
reader `hex_value` asserts on anything but `0-9a-f`. The bootstrap (src/src/bootstrap/bootstrap.cpp)
has its own pair: `encode_value` takes the bytes as (signed) `char`, shifts them after the
promotion to `int`, and writes no terminator, so `alltoall` encodes into a zero-filled buffer;
`decode_value` reads digits with `hexCharToValue`, which also accepts `A-F` and throws on
anything else. Both decoders check `strlen` against twice the number of bytes first.

The text buffers are lists of characters of the buffer's size; writing past their end is
not modelled (`List.set` leaves the list as it is), since both encoders assert that the digits
and a NUL fit. A failed assertion, and the exception of `hexCharToValue`, are errors that carry
the message the code prints or throws. -/

namespace Lci.PmiHex

open Lci.ShmRing (NUL c_string)
open Lci.Codec

/-- `LCT_PMI_STRING_LIMIT` (lct/api/lct.h): the size of a PMI key or value buffer. -/
def LCT_PMI_STRING_LIMIT : Nat := 255

/-- `pmi_max_binary_bytes`: the largest record whose digits and NUL fit a PMI value. -/
def pmi_max_binary_bytes : Nat := (LCT_PMI_STRING_LIMIT - 1) / 2

/-- `"0123456789abcdef"`, the digits both encoders index (`hex` and `HEX_CHARS`). -/
def HEX_CHARS : List Char :=
  ['0', '1', '2', '3', '4', '5', '6', '7', '8', '9', 'a', 'b', 'c', 'd', 'e', 'f']

/-- `strlen`: the characters before the first NUL. -/
def strlen (buf : List Char) : Nat := (c_string buf).length

/-! ### Digits -/

/-- `hex_value` (shm): the value of a lowercase hex digit. -/
def hex_value (value : Char) : Except String UInt8 :=
  if '0' ≤ value ∧ value ≤ '9' then .ok (UInt8.ofNat (value.toNat - '0'.toNat))
  else if 'a' ≤ value ∧ value ≤ 'f' then .ok (UInt8.ofNat (value.toNat - 'a'.toNat + 10))
  else .error "Invalid SHM PMI hex character\n"

/-- `hexCharToValue` (bootstrap): as `hex_value`, with a branch for uppercase digits. -/
def hexCharToValue (c : Char) : Except String UInt8 :=
  if '0' ≤ c ∧ c ≤ '9' then .ok (UInt8.ofNat (c.toNat - '0'.toNat))
  else if 'a' ≤ c ∧ c ≤ 'f' then .ok (UInt8.ofNat (c.toNat - 'a'.toNat + 10))
  else if 'A' ≤ c ∧ c ≤ 'F' then .ok (UInt8.ofNat (c.toNat - 'A'.toNat + 10))
  else .error "Invalid hex character"

/-- `(value(c0) << 4) | value(c1)`, truncated to a byte: what both decoders make of two digits. -/
def hex_byte (value : Char → Except String UInt8) (c0 c1 : Char) : Except String UInt8 := do
  let h ← value c0
  let l ← value c1
  pure ((h <<< 4) ||| l)

/-- `hexToByte` (bootstrap): the byte of the two digits at `hex`. -/
def hexToByte (hex : List Char) : Except String UInt8 :=
  hex_byte hexCharToValue (hex.getD 0 NUL) (hex.getD 1 NUL)

/-! ### Encoders -/

/-- The loop of both encoders from byte `i` on: `output[2 * i]` and `output[2 * i + 1]` get the
digits `HEX_CHARS[hi byte]` and `HEX_CHARS[lo byte]`. -/
def hex_loop {β : Type} (hi lo : β → Nat) : List β → Nat → List Char → List Char
  | [], _, output => output
  | byte :: bytes, i, output =>
    hex_loop hi lo bytes (i + 1)
      ((output.set (2 * i) (HEX_CHARS.getD (hi byte) NUL)).set (2 * i + 1)
        (HEX_CHARS.getD (lo byte) NUL))

/-- `encode_pmi_value` (shm): the digits of the bytes, high nibble first, then a NUL. -/
def encode_pmi_value (input : List UInt8) (output : List Char) : Except String (List Char) :=
  if pmi_max_binary_bytes < input.length then
    .error "SHM PMI value of %lu bytes exceeds encoding limit\n"
  else
    .ok ((hex_loop (fun b : UInt8 => (b >>> 4).toNat) (fun b : UInt8 => (b &&& 0xf).toNat) input 0
      output).set (2 * input.length) NUL)

/-- `encode_value` (bootstrap): the digits of the bytes, read as `char` and shifted as `int`;
no terminator is written. -/
def encode_value (buf_origin : List Int8) (buf_encoded : List Char) : Except String (List Char) :=
  if LCT_PMI_STRING_LIMIT < 2 * buf_origin.length + 1 then
    .error "Buffer to store encoded address is too short! Use a higher ENCODED_LIMIT"
  else
    .ok (hex_loop (fun byte : Int8 => ((byte.toInt32 >>> 4) &&& 0x0F).toBitVec.toNat)
      (fun byte : Int8 => (byte.toInt32 &&& 0x0F).toBitVec.toNat) buf_origin 0 buf_encoded)

/-! ### Decoders -/

/-- `decode_pmi_value` (shm): the length check, then byte `i` from the digits at `2 * i` and
`2 * i + 1`. -/
def decode_pmi_value (input : List Char) (size : Nat) : Except String (List UInt8) :=
  if strlen input ≠ 2 * size then .error "Invalid SHM PMI encoded value length\n"
  else (List.range size).mapM fun i =>
    hex_byte hex_value (input.getD (2 * i) NUL) (input.getD (2 * i + 1) NUL)

/-- `decode_value` (bootstrap): the length check, then byte `i` by `hexToByte` at `2 * i`, stored
as `char`. -/
def decode_value (buf_encoded : List Char) (nbytes : Nat) : Except String (List Int8) :=
  if strlen buf_encoded ≠ 2 * nbytes then
    .error "Encoded buffer length is not correct! Expected %d, got %d\n"
  else (List.range nbytes).mapM fun i => (hexToByte (buf_encoded.drop (2 * i))).map UInt8.toInt8

/-! ### The digits of a byte -/

/-- The two digits a byte is written as, by the nibble functions of an encoder. -/
def hex_pair {β : Type} (hi lo : β → Nat) (byte : β) : List Char :=
  [HEX_CHARS.getD (hi byte) NUL, HEX_CHARS.getD (lo byte) NUL]

@[simp] theorem hex_pair_length {β : Type} (hi lo : β → Nat) (byte : β) :
    (hex_pair hi lo byte).length = 2 := rfl

theorem HEX_CHARS_ne_NUL : ∀ v < 16, HEX_CHARS.getD v NUL ≠ NUL := by decide

theorem hex_value_HEX_CHARS : ∀ v < 16, hex_value (HEX_CHARS.getD v NUL) = .ok (UInt8.ofNat v) := by
  decide

theorem hexCharToValue_HEX_CHARS :
    ∀ v < 16, hexCharToValue (HEX_CHARS.getD v NUL) = .ok (UInt8.ofNat v) := by
  decide

theorem nibbles_or (b : UInt8) : (UInt8.ofNat (b.toNat / 16) <<< 4) ||| UInt8.ofNat (b.toNat % 16) = b := by
  apply UInt8.toNat_inj.mp
  have hb := b.toNat_lt
  have hlo : b.toNat % 16 < 2 ^ 4 := Nat.mod_lt _ (by norm_num)
  rw [UInt8.toNat_or, UInt8.toNat_shiftLeft, UInt8.toNat_ofNat', UInt8.toNat_ofNat']
  have h4 : (4 : UInt8).toNat % 8 = 4 := rfl
  have hhi : b.toNat / 16 % 2 ^ 8 = b.toNat / 16 := Nat.mod_eq_of_lt (by omega)
  have hshift : (b.toNat / 16) <<< 4 % 2 ^ 8 = (b.toNat / 16) <<< 4 := by
    rw [Nat.shiftLeft_eq]
    exact Nat.mod_eq_of_lt (by omega)
  have hlo' : b.toNat % 16 % 2 ^ 8 = b.toNat % 16 := Nat.mod_eq_of_lt (by omega)
  rw [h4, hhi, hshift, hlo', ← Nat.shiftLeft_add_eq_or_of_lt hlo, Nat.shiftLeft_eq]
  omega

theorem shm_nibbles (b : UInt8) : (b >>> 4).toNat = b.toNat / 16 ∧ (b &&& 0xf).toNat = b.toNat % 16 := by
  constructor
  · rw [UInt8.toNat_shiftRight, Nat.shiftRight_eq_div_pow]
    rfl
  · rw [UInt8.toNat_and]
    exact Nat.and_two_pow_sub_one_eq_mod b.toNat 4

/-- The bootstrap encoder's nibbles: the shift of the sign-extended `char` fills the top with
ones, which the mask with `0x0F` removes, so a byte at or above `0x80` gives the same digits as
its unsigned value. -/
theorem bootstrap_nibbles (byte : Int8) :
    ((byte.toInt32 >>> 4) &&& 0x0F).toBitVec.toNat = byte.toUInt8.toNat / 16 ∧
    (byte.toInt32 &&& 0x0F).toBitVec.toNat = byte.toUInt8.toNat % 16 := by
  rw [Int32.toBitVec_and, Int32.toBitVec_and, Int32.toBitVec_shiftRight, Int8.toBitVec_toInt32]
  simp only [UInt8.toNat, Int8.toBitVec_toUInt8]
  generalize byte.toBitVec = v
  revert v
  decide

section Digits

variable {β : Type} {hi lo : β → Nat} {value : Char → Except String UInt8} {toByte : β → UInt8}

/-- A digit reader that reads every digit back, on the digits of an encoder that writes the high
and the low nibble of a byte, gives that byte. -/
theorem hex_byte_hex_pair (hvalue : ∀ v < 16, value (HEX_CHARS.getD v NUL) = .ok (UInt8.ofNat v))
    (hhi : ∀ b, hi b = (toByte b).toNat / 16) (hlo : ∀ b, lo b = (toByte b).toNat % 16) (b : β) :
    hex_byte value (HEX_CHARS.getD (hi b) NUL) (HEX_CHARS.getD (lo b) NUL) = .ok (toByte b) := by
  have hb := (toByte b).toNat_lt
  rw [hex_byte, hvalue _ (by rw [hhi]; omega), hvalue _ (by rw [hlo]; omega), hhi, hlo]
  exact congrArg Except.ok (nibbles_or (toByte b))

theorem NUL_not_mem_flatMap_hex_pair (hhi : ∀ b, hi b = (toByte b).toNat / 16)
    (hlo : ∀ b, lo b = (toByte b).toNat % 16) (bytes : List β) :
    NUL ∉ bytes.flatMap (hex_pair hi lo) := by
  simp only [List.mem_flatMap, hex_pair, List.mem_cons, List.not_mem_nil, or_false, not_exists,
    not_and]
  intro b _ h
  have hb := (toByte b).toNat_lt
  rcases h with h | h
  · exact HEX_CHARS_ne_NUL (hi b) (by rw [hhi]; omega) h.symm
  · exact HEX_CHARS_ne_NUL (lo b) (by rw [hlo]; omega) h.symm

end Digits

/-! ### The loops -/

theorem hex_loop_append {β : Type} (hi lo : β → Nat) (bytes : List β) {i : Nat} {pre : List Char}
    (hpre : pre.length = 2 * i) {rest : List Char} (hrest : 2 * bytes.length ≤ rest.length) :
    hex_loop hi lo bytes i (pre ++ rest) =
      pre ++ bytes.flatMap (hex_pair hi lo) ++ rest.drop (2 * bytes.length) := by
  induction bytes generalizing i pre rest with
  | nil => simp [hex_loop]
  | cons b bytes ih =>
    obtain ⟨r1, r2, rest', rfl⟩ : ∃ r1 r2 rest', rest = r1 :: r2 :: rest' := by
      match rest, hrest with
      | r1 :: r2 :: rest', _ => exact ⟨r1, r2, rest', rfl⟩
    have hset : ((pre ++ r1 :: r2 :: rest').set (2 * i) (HEX_CHARS.getD (hi b) NUL)).set (2 * i + 1)
        (HEX_CHARS.getD (lo b) NUL) = (pre ++ hex_pair hi lo b) ++ rest' := by
      rw [List.set_append_right _ _ (by omega), List.set_append_right _ _ (by omega)]
      simp [hpre, hex_pair]
    rw [hex_loop, hset, ih (by simp [hpre]; omega) (by simp at hrest; omega)]
    simp [Nat.mul_succ]

theorem hex_loop_zero {β : Type} (hi lo : β → Nat) (bytes : List β) {output : List Char}
    (hlen : 2 * bytes.length ≤ output.length) :
    hex_loop hi lo bytes 0 output =
      bytes.flatMap (hex_pair hi lo) ++ output.drop (2 * bytes.length) := by
  simpa using hex_loop_append hi lo bytes (show ([] : List Char).length = 2 * 0 from rfl) hlen

theorem c_string_append_nul_cons {text : List Char} (htext : NUL ∉ text) (rest : List Char) :
    c_string (text ++ NUL :: rest) = text := by
  have hall : ∀ a ∈ text, (a != NUL) = true := fun a ha => by
    simp only [bne_iff_ne, ne_eq]
    rintro rfl
    exact htext ha
  rw [c_string, List.takeWhile_append_of_pos hall]
  simp

theorem drop_flatMap_hex_pair {β : Type} (hi lo : β → Nat) (bytes : List β) {i : Nat}
    (hidx : i < bytes.length) (rest : List Char) :
    (bytes.flatMap (hex_pair hi lo) ++ rest).drop (2 * i) =
      HEX_CHARS.getD (hi bytes[i]) NUL :: HEX_CHARS.getD (lo bytes[i]) NUL ::
        ((bytes.drop (i + 1)).flatMap (hex_pair hi lo) ++ rest) := by
  have hle : 2 * i ≤ (bytes.flatMap (hex_pair hi lo)).length := by
    simp [List.length_flatMap]
    omega
  rw [List.drop_append_of_le_length hle, drop_flatMap_getElem (hex_pair_length hi lo) hidx]
  rfl

section Decode

variable {β : Type} {hi lo : β → Nat} {toByte : β → UInt8}

theorem strlen_flatMap_hex_pair (hhi : ∀ b, hi b = (toByte b).toNat / 16)
    (hlo : ∀ b, lo b = (toByte b).toNat % 16) (bytes : List β) (rest : List Char) :
    strlen (bytes.flatMap (hex_pair hi lo) ++ NUL :: rest) = 2 * bytes.length := by
  rw [strlen, c_string_append_nul_cons (NUL_not_mem_flatMap_hex_pair hhi hlo bytes)]
  simp [List.length_flatMap]
  omega

theorem decode_pmi_value_flatMap (hhi : ∀ b, hi b = (toByte b).toNat / 16)
    (hlo : ∀ b, lo b = (toByte b).toNat % 16) (bytes : List β) (rest : List Char) :
    decode_pmi_value (bytes.flatMap (hex_pair hi lo) ++ NUL :: rest) bytes.length =
      .ok (bytes.map toByte) := by
  have hrange := map_getD_range (bytes.map toByte) 0
  rw [List.length_map] at hrange
  rw [decode_pmi_value, strlen_flatMap_hex_pair hhi hlo, if_neg (by omega), ← hrange]
  apply mapM_eq_ok
  intro i hidx
  rw [List.mem_range] at hidx
  have hdrop := drop_flatMap_hex_pair hi lo bytes hidx (NUL :: rest)
  rw [getD_of_drop_eq_cons hdrop, getD_of_drop_eq_cons (drop_succ_of_drop_eq_cons hdrop),
    hex_byte_hex_pair hex_value_HEX_CHARS hhi hlo]
  simp [List.getElem?_eq_getElem hidx]

end Decode

/-- `decode_value` reads back the digits of an encoder of the high and low nibbles of each `char`,
whatever follows their NUL, and stores the bytes as `char` again. -/
theorem decode_value_flatMap {hi lo : Int8 → Nat} (hhi : ∀ b, hi b = b.toUInt8.toNat / 16)
    (hlo : ∀ b, lo b = b.toUInt8.toNat % 16) (bytes : List Int8) (rest : List Char) :
    decode_value (bytes.flatMap (hex_pair hi lo) ++ NUL :: rest) bytes.length = .ok bytes := by
  have hrange := map_getD_range bytes 0
  rw [decode_value, strlen_flatMap_hex_pair hhi hlo, if_neg (by omega)]
  conv_rhs => rw [← hrange]
  apply mapM_eq_ok
  intro i hidx
  rw [List.mem_range] at hidx
  rw [drop_flatMap_hex_pair hi lo bytes hidx (NUL :: rest), hexToByte]
  simp only [List.getD_cons_zero, List.getD_cons_succ]
  rw [hex_byte_hex_pair hexCharToValue_HEX_CHARS hhi hlo]
  simp [Except.map, Int8.toInt8_toUInt8, List.getElem?_eq_getElem hidx]

/-! ### Round trips -/

/-- What `encode_pmi_value` writes into a buffer of the PMI value size: the digits, a NUL, and
the rest of the buffer as it was. -/
theorem encode_pmi_value_eq (input : List UInt8) {output : List Char}
    (hfit : 2 * input.length + 1 ≤ LCT_PMI_STRING_LIMIT)
    (hbuf : output.length = LCT_PMI_STRING_LIMIT) :
    encode_pmi_value input output =
      .ok (input.flatMap (hex_pair (fun b : UInt8 => (b >>> 4).toNat)
        (fun b : UInt8 => (b &&& 0xf).toNat)) ++ NUL :: output.drop (2 * input.length + 1)) := by
  rw [encode_pmi_value, if_neg (by unfold pmi_max_binary_bytes; omega), hex_loop_zero _ _ _ (by omega),
    List.set_append_right _ _ (by simp [List.length_flatMap]; omega)]
  simp only [List.length_flatMap, hex_pair_length, List.map_const', List.sum_replicate, smul_eq_mul,
    Nat.mul_comm, Nat.sub_self]
  rw [List.drop_eq_getElem_cons (by omega)]
  rfl

theorem encode_value_eq (buf_origin : List Int8)
    (hfit : 2 * buf_origin.length + 1 ≤ LCT_PMI_STRING_LIMIT) :
    encode_value buf_origin (List.replicate LCT_PMI_STRING_LIMIT NUL) =
      .ok (buf_origin.flatMap
        (hex_pair (fun byte : Int8 => ((byte.toInt32 >>> 4) &&& 0x0F).toBitVec.toNat)
          (fun byte : Int8 => (byte.toInt32 &&& 0x0F).toBitVec.toNat)) ++
        NUL :: List.replicate (LCT_PMI_STRING_LIMIT - (2 * buf_origin.length + 1)) NUL) := by
  rw [encode_value, if_neg (by omega), hex_loop_zero _ _ _ (by simp; omega), List.drop_replicate]
  have hcount : LCT_PMI_STRING_LIMIT - 2 * buf_origin.length =
      LCT_PMI_STRING_LIMIT - (2 * buf_origin.length + 1) + 1 := by omega
  rw [hcount, List.replicate_succ]

theorem pmi_hex_round_trip :
    (∀ (input : List UInt8) (output : List Char), 2 * input.length + 1 ≤ LCT_PMI_STRING_LIMIT →
      output.length = LCT_PMI_STRING_LIMIT →
      ∃ encoded, encode_pmi_value input output = .ok encoded ∧
        decode_pmi_value encoded input.length = .ok input) ∧
    (∀ buf_origin : List Int8, 2 * buf_origin.length + 1 ≤ LCT_PMI_STRING_LIMIT →
      ∃ encoded, encode_value buf_origin (List.replicate LCT_PMI_STRING_LIMIT NUL) = .ok encoded ∧
        decode_value encoded buf_origin.length = .ok buf_origin) := by
  constructor
  · intro input output hfit hbuf
    refine ⟨_, encode_pmi_value_eq input hfit hbuf, ?_⟩
    have hhi : ∀ b : UInt8, (b >>> 4).toNat = (id b).toNat / 16 := fun b => (shm_nibbles b).1
    have hlo : ∀ b : UInt8, (b &&& 0xf).toNat = (id b).toNat % 16 := fun b => (shm_nibbles b).2
    have hdecode := decode_pmi_value_flatMap hhi hlo input (output.drop (2 * input.length + 1))
    rwa [List.map_id] at hdecode
  · intro buf_origin hfit
    exact ⟨_, encode_value_eq buf_origin hfit, decode_value_flatMap (fun b => (bootstrap_nibbles b).1)
      (fun b => (bootstrap_nibbles b).2) buf_origin _⟩

end Lci.PmiHex
