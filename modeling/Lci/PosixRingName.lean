import Lci.ShmGeometry
import Mathlib.Data.Nat.Digits.Lemmas

/-! The names of the POSIX shared-memory objects (`make_posix_ring_name`): `/lci-`, the owner's
rank in base 36, `-` and sixteen base32hex digits of an 80-bit digest; the expectation a peer
derives from them (`expected_ring`), and the agreement of the handle the owner publishes with it. -/

namespace Lci.ShmRing

/-! ### The digest -/

def mix64 (value : UInt64) : UInt64 :=
  let value := value ^^^ (value >>> 30)
  let value := value * 0xbf58476d1ce4e5b9
  let value := value ^^^ (value >>> 27)
  let value := value * 0x94d049bb133111eb
  value ^^^ (value >>> 31)

/-- `mix_into(&state, value)`: the new state. -/
def mix_into (state value : UInt64) : UInt64 :=
  mix64 (state ^^^ (value + (0x9e3779b97f4a7c15 : UInt64) + (state <<< 6) + (state >>> 2)))

/-! ### The two encodings -/

def base36_digits : List Char :=
  ['0', '1', '2', '3', '4', '5', '6', '7', '8', '9', 'a', 'b', 'c', 'd', 'e', 'f', 'g', 'h',
    'i', 'j', 'k', 'l', 'm', 'n', 'o', 'p', 'q', 'r', 's', 't', 'u', 'v', 'w', 'x', 'y', 'z']

def base32hex_digits : List Char :=
  ['0', '1', '2', '3', '4', '5', '6', '7', '8', '9', 'a', 'b', 'c', 'd', 'e', 'f', 'g', 'h',
    'i', 'j', 'k', 'l', 'm', 'n', 'o', 'p', 'q', 'r', 's', 't', 'u', 'v']

/-- The `do`-`while` loop of `encode_base36`: `result` with the digits of `value` pushed, least
significant first. -/
def encode_base36_loop (value : Nat) (result : List Char) : List Char :=
  let result := result ++ [base36_digits.getD (value % 36) NUL]
  if _ : value / 36 ≠ 0 then encode_base36_loop (value / 36) result else result
termination_by value
decreasing_by omega

/-- `encode_base36`: the loop's digits, reversed. -/
def encode_base36 (value : UInt32) : List Char := (encode_base36_loop value.toNat []).reverse

/-- The ten bytes `encode_base32hex_80` reads: `high64` most significant byte first, then
`low16`. -/
def digest_bytes (high64 : UInt64) (low16 : UInt16) : List UInt8 :=
  (List.range 8).map (fun i => (high64 >>> UInt64.ofNat ((7 - i) * 8)).toUInt8) ++
    [(low16 >>> 8).toUInt8, low16.toUInt8]

/-- One turn of the inner loop of `encode_base32hex_80`: bit `bit` of digit `i` shifted in. -/
def shift_in_bit (bytes : List UInt8) (i value bit : Nat) : Nat :=
  let source_bit := i * 5 + bit
  let byte_index := source_bit / 8
  let bit_index := 7 - source_bit % 8
  ((value <<< 1) ||| ((bytes.getD byte_index 0).toNat >>> bit_index &&& 1)) % 256

/-- The value of digit `i`: its five bits, most significant first. -/
def digit_value (bytes : List UInt8) (i : Nat) : Nat :=
  (List.range 5).foldl (shift_in_bit bytes i) 0

/-- `encode_base32hex_80`: the 80 bits in sixteen digits of five bits. -/
def encode_base32hex_80 (high64 : UInt64) (low16 : UInt16) : List Char :=
  let bytes := digest_bytes high64 low16
  (List.range 16).map fun i => base32hex_digits.getD (digit_value bytes i) NUL

/-- `make_posix_ring_name(job_nonce, device_uid, owner_global_rank)`; a negative rank is
written as 0. -/
def make_posix_ring_name (job_nonce : UInt64 × UInt64) (device_uid : UInt64)
    (owner_global_rank : Int32) : List Char :=
  let rank : UInt32 := if owner_global_rank < 0 then 0 else owner_global_rank.toUInt32
  let h0 := mix_into (mix_into (mix_into (mix_into 0x6c63692d73686d30 job_nonce.1) job_nonce.2)
    device_uid) rank.toUInt64
  let h1 := mix_into (mix_into (mix_into (mix_into 0x6c63692d73686d31 device_uid)
    rank.toUInt64) job_nonce.2) job_nonce.1
  ['/', 'l', 'c', 'i', '-'] ++ encode_base36 rank ++ ['-'] ++
    encode_base32hex_80 h0 (h1 >>> 48).toUInt16

/-! ### Base 36 -/

theorem base36_digit_mem {d : Nat} (hd : d < 36) : base36_digits.getD d NUL ∈ base36_digits := by
  have hlt : d < base36_digits.length := hd
  rw [List.getD_eq_getElem _ _ hlt]
  exact List.getElem_mem hlt

theorem encode_base36_loop_eq (value : Nat) (result : List Char) (h : value ≠ 0) :
    encode_base36_loop value result =
      result ++ (Nat.digits 36 value).map fun d => base36_digits.getD d NUL := by
  -- strong induction along the loop: each turn pushes `value % 36` and goes on with `value / 36`
  induction value using Nat.strong_induction_on generalizing result with
  | _ value ih =>
    rw [encode_base36_loop, Nat.digits_def' (by decide) (Nat.pos_of_ne_zero h)]
    split
    · rename_i hq
      rw [ih (value / 36) (by omega) _ hq]
      simp
    · rename_i hq
      have hzero : value / 36 = 0 := by omega
      simp [hzero]

theorem encode_base36_loop_zero (result : List Char) :
    encode_base36_loop 0 result = result ++ ['0'] := by
  rw [encode_base36_loop]
  rfl

theorem mem_encode_base36 {value : UInt32} {c : Char} (h : c ∈ encode_base36 value) :
    c ∈ base36_digits := by
  rw [encode_base36, List.mem_reverse] at h
  by_cases hv : value.toNat = 0
  · rw [hv, encode_base36_loop_zero, List.nil_append, List.mem_singleton] at h
    subst h
    decide
  · rw [encode_base36_loop_eq _ _ hv, List.nil_append] at h
    obtain ⟨d, hd, rfl⟩ := List.mem_map.mp h
    exact base36_digit_mem (Nat.digits_lt_base (by decide) hd)

theorem encode_base36_length_le (value : UInt32) : (encode_base36 value).length ≤ 7 := by
  rw [encode_base36, List.length_reverse]
  by_cases h : value.toNat = 0
  · rw [h, encode_base36_loop_zero]
    decide
  · rw [encode_base36_loop_eq _ _ h, List.nil_append, List.length_map,
      Nat.digits_length_le_iff (by decide)]
    have := value.toNat_lt
    omega

theorem base36_index_digit : ∀ d < 36, base36_digits.idxOf (base36_digits.getD d NUL) = d := by
  decide

/-- The number a string of base-36 digits stands for, most significant first. -/
def base36_value (digits : List Char) : Nat :=
  Nat.ofDigits 36 (digits.reverse.map fun c => base36_digits.idxOf c)

theorem base36_value_encode_base36 (value : UInt32) :
    base36_value (encode_base36 value) = value.toNat := by
  rw [base36_value, encode_base36, List.reverse_reverse]
  by_cases h : value.toNat = 0
  · rw [h, encode_base36_loop_zero]
    rfl
  · rw [encode_base36_loop_eq _ _ h, List.nil_append, List.map_map]
    conv_rhs => rw [← Nat.ofDigits_digits 36 value.toNat, ← List.map_id (Nat.digits 36 _)]
    congr 1
    exact List.map_congr_left fun d hd =>
      base36_index_digit d (Nat.digits_lt_base (by decide) hd)

theorem encode_base36_injective {a b : UInt32} (h : encode_base36 a = encode_base36 b) : a = b :=
  UInt32.toNat_inj.mp (by rw [← base36_value_encode_base36, h, base36_value_encode_base36])

/-! ### Base32hex -/

theorem shift_in_bit_lt (bytes : List UInt8) (i bit : Nat) {value j : Nat}
    (h : value < 2 ^ j) : shift_in_bit bytes i value bit < 2 ^ (j + 1) := by
  have hshift : value <<< 1 < 2 ^ (j + 1) := by
    rw [Nat.shiftLeft_eq, Nat.pow_succ]
    omega
  have hbit : (bytes.getD ((i * 5 + bit) / 8) 0).toNat >>> (7 - (i * 5 + bit) % 8) &&& 1 <
      2 ^ (j + 1) :=
    Nat.lt_of_le_of_lt Nat.and_le_right (Nat.one_lt_two_pow (by omega))
  exact Nat.lt_of_le_of_lt (Nat.mod_le _ _) (Nat.or_lt_two_pow hshift hbit)

theorem foldl_shift_in_bit_lt (bytes : List UInt8) (i : Nat) (bits : List Nat) {value j : Nat}
    (h : value < 2 ^ j) : bits.foldl (shift_in_bit bytes i) value < 2 ^ (j + bits.length) := by
  induction bits generalizing value j with
  | nil => simpa using h
  | cons bit bits ih =>
    rw [List.foldl_cons, List.length_cons,
      show j + (bits.length + 1) = j + 1 + bits.length by omega]
    exact ih (shift_in_bit_lt bytes i bit h)

/-- Five bits make a digit below 32, so the lookup stays inside `base32hex_digits`. -/
theorem digit_value_lt (bytes : List UInt8) (i : Nat) : digit_value bytes i < 32 :=
  foldl_shift_in_bit_lt bytes i (List.range 5) (j := 0) Nat.zero_lt_one

theorem encode_base32hex_80_length (high64 : UInt64) (low16 : UInt16) :
    (encode_base32hex_80 high64 low16).length = 16 := by
  simp [encode_base32hex_80]

theorem mem_encode_base32hex_80 {high64 : UInt64} {low16 : UInt16} {c : Char}
    (h : c ∈ encode_base32hex_80 high64 low16) : c ∈ base32hex_digits := by
  obtain ⟨i, -, rfl⟩ := List.mem_map.mp h
  have hlt : digit_value (digest_bytes high64 low16) i < base32hex_digits.length :=
    digit_value_lt _ i
  rw [List.getD_eq_getElem _ _ hlt]
  exact List.getElem_mem hlt

/-! ### Object names -/

/-- A name `valid_object_name` accepts once terminated: a leading `/`, at least one more byte, no
other `/` and no terminator inside. -/
structure ObjectName (name : List Char) : Prop where
  two_le : 2 ≤ name.length
  head_slash : name.head? = some '/'
  no_slash : '/' ∉ name.drop 1
  no_nul : NUL ∉ name

theorem findIdx?_nul_append {name : List Char} (h : NUL ∉ name) {k : Nat} (hk : 0 < k) :
    (name ++ List.replicate k NUL).findIdx? (· == NUL) = some name.length := by
  have hnone : name.findIdx? (· == NUL) = none :=
    List.findIdx?_eq_none_iff.mpr fun x hx => by
      simp only [beq_eq_false_iff_ne]
      rintro rfl
      exact h hx
  simp [List.findIdx?_append, hnone, List.findIdx?_replicate, hk]

/-- The owner's array and the peer's `c_str()` are the name followed by terminators. -/
theorem ObjectName.valid_object_name_append {name : List Char} (h : ObjectName name) {k : Nat}
    (hk : 0 < k) : valid_object_name (name ++ List.replicate k NUL) = true := by
  have hslash : '/' ∉ name.tail := by simpa using h.no_slash
  have hlen := h.two_le
  simp [valid_object_name, findIdx?_nul_append h.no_nul hk, hlen, List.head?_append,
    h.head_slash, hslash, List.drop_append, List.drop_replicate,
    List.drop_eq_nil_of_le (Nat.le_succ name.length)]

theorem c_string_append_nul {name : List Char} (h : NUL ∉ name) (k : Nat) :
    c_string (name ++ List.replicate k NUL) = name := by
  have hall : ∀ a ∈ name, (a != NUL) = true := fun a ha => by
    simp only [bne_iff_ne, ne_eq]
    rintro rfl
    exact h ha
  rw [c_string, List.takeWhile_append_of_pos hall, List.takeWhile_replicate]
  simp

/-- A name array that `valid_object_name` accepts is determined by its C string: the bytes after
the terminator are all terminators. -/
theorem eq_name_array_of_valid {arr : List Char} (hlen : arr.length = posix_ring_name_capacity)
    (hvalid : valid_object_name arr = true) : arr = name_array (c_string arr) := by
  unfold valid_object_name at hvalid
  split at hvalid
  · cases hvalid
  · rename_i size hsize
    obtain ⟨hlt, hnul, hbefore⟩ := List.findIdx?_eq_some_iff_getElem.mp hsize
    simp only [Bool.and_eq_true, List.all_eq_true, beq_iff_eq] at hvalid
    obtain ⟨-, hafter⟩ := hvalid
    have hprefix : ∀ a ∈ arr.take size, (a != NUL) = true := by
      intro a ha
      obtain ⟨j, hj, rfl⟩ := List.getElem_of_mem ha
      simp only [List.length_take] at hj
      simpa [List.getElem_take] using hbefore j (by omega)
    have hsplit : arr = arr.take size ++ NUL :: arr.drop (size + 1) := by
      rw [← beq_iff_eq.mp hnul, ← List.drop_eq_getElem_cons hlt, List.take_append_drop]
    have hzeros : arr.drop (size + 1) = List.replicate (posix_ring_name_capacity - size - 1) NUL :=
      List.eq_replicate_iff.mpr ⟨by simp [hlen]; omega, hafter⟩
    have hname : c_string arr = arr.take size := by
      rw [c_string]
      conv_lhs => rw [hsplit]
      rw [List.takeWhile_append_of_pos hprefix]
      simp [NUL]
    rw [hname, name_array, List.length_take_of_le hlt.le]
    conv_lhs => rw [hsplit, hzeros]
    rw [← List.replicate_succ,
      show posix_ring_name_capacity - size - 1 + 1 = posix_ring_name_capacity - size by omega]

/-! ### The generated names -/

section Name

variable (job_nonce : UInt64 × UInt64) (device_uid : UInt64) (owner_global_rank : Int32)

/-- The shape of a generated name: the prefix, the rank in base 36, `-` and a digest of sixteen
base32hex digits. -/
theorem make_posix_ring_name_eq :
    ∃ digest : List Char, digest.length = 16 ∧ (∀ c ∈ digest, c ∈ base32hex_digits) ∧
      make_posix_ring_name job_nonce device_uid owner_global_rank =
        ['/', 'l', 'c', 'i', '-'] ++
          encode_base36 (if owner_global_rank < 0 then 0 else owner_global_rank.toUInt32) ++
          ['-'] ++ digest :=
  ⟨_, encode_base32hex_80_length _ _, fun _ hc => mem_encode_base32hex_80 hc, rfl⟩

theorem make_posix_ring_name_length :
    (make_posix_ring_name job_nonce device_uid owner_global_rank).length ≤
      posix_ring_portable_name_max := by
  obtain ⟨digest, hlen, -, heq⟩ := make_posix_ring_name_eq job_nonce device_uid owner_global_rank
  have hrank := encode_base36_length_le
    (if owner_global_rank < 0 then 0 else owner_global_rank.toUInt32)
  rw [heq]
  simp only [List.length_append, List.length_cons, List.length_nil, hlen,
    posix_ring_portable_name_max]
  omega

/-- After the leading `/`, a generated name has only `-` and base-36 digits. -/
theorem mem_make_posix_ring_name_drop_one {c : Char}
    (h : c ∈ (make_posix_ring_name job_nonce device_uid owner_global_rank).drop 1) :
    c = '-' ∨ c ∈ base36_digits := by
  obtain ⟨digest, -, hdigest, heq⟩ :=
    make_posix_ring_name_eq job_nonce device_uid owner_global_rank
  have hdrop : (make_posix_ring_name job_nonce device_uid owner_global_rank).drop 1 =
      ['l', 'c', 'i', '-'] ++
        (encode_base36 (if owner_global_rank < 0 then 0 else owner_global_rank.toUInt32) ++
          '-' :: digest) := by
    rw [heq]
    simp
  rw [hdrop, List.mem_append, List.mem_append] at h
  rcases h with h | h | h
  · revert h c
    simp [base36_digits]
  · exact .inr (mem_encode_base36 h)
  rcases List.mem_cons.mp h with rfl | h
  · exact .inl rfl
  · -- `base32hex_digits` is the first 32 of `base36_digits`
    have h32 : base32hex_digits = base36_digits.take 32 := rfl
    exact .inr (List.mem_of_mem_take (h32 ▸ hdigest c h))

theorem make_posix_ring_name_objectName :
    ObjectName (make_posix_ring_name job_nonce device_uid owner_global_rank) := by
  obtain ⟨digest, hlen, -, heq⟩ := make_posix_ring_name_eq job_nonce device_uid owner_global_rank
  have hhead : (make_posix_ring_name job_nonce device_uid owner_global_rank).head? = some '/' := by
    simp [heq]
  have hslash : '/' ∉ (make_posix_ring_name job_nonce device_uid owner_global_rank).drop 1 :=
    fun h => by
      rcases mem_make_posix_ring_name_drop_one job_nonce device_uid owner_global_rank h with h | h
      · cases h
      · exact absurd h (by decide)
  refine ⟨by simp [heq, hlen], hhead, hslash, fun h => ?_⟩
  rw [← List.cons_head?_tail hhead, List.mem_cons, ← List.drop_one] at h
  rcases h with h | h
  · exact absurd h (by decide)
  · rcases mem_make_posix_ring_name_drop_one job_nonce device_uid owner_global_rank h with h | h
    · exact absurd h (by decide)
    · exact absurd h (by decide)

end Name

/-- Two owners of nonnegative rank get the same name only when their ranks agree: the base-36
rank is read back from between the prefix and the fixed-length digest. -/
theorem make_posix_ring_name_rank_injective (job_nonce : UInt64 × UInt64) (device_uid : UInt64)
    {rank rank' : Int32} (hrank : 0 ≤ rank) (hrank' : 0 ≤ rank')
    (h : make_posix_ring_name job_nonce device_uid rank =
      make_posix_ring_name job_nonce device_uid rank') : rank = rank' := by
  obtain ⟨digest, hlen, -, heq⟩ := make_posix_ring_name_eq job_nonce device_uid rank
  obtain ⟨digest', hlen', -, heq'⟩ := make_posix_ring_name_eq job_nonce device_uid rank'
  rw [heq, heq', if_neg (Int32.not_lt.mpr hrank), if_neg (Int32.not_lt.mpr hrank')] at h
  obtain ⟨h, -⟩ := List.append_inj' h (hlen.trans hlen'.symm)
  obtain ⟨h, -⟩ := List.append_inj' h rfl
  have hu := encode_base36_injective (List.append_cancel_left h)
  exact Int32.toBitVec_inj.mp (by rw [← Int32.toBitVec_toUInt32, hu, Int32.toBitVec_toUInt32])

/-! ### The owner's handle and the peer's expectation -/

/-- `make_object_name(context, device_uid, owner_global_rank)`; the context enters through its
`job_nonce`. -/
def make_object_name (job_nonce : UInt64 × UInt64) (device_uid : UInt64)
    (owner_global_rank : Int32) : List Char :=
  make_posix_ring_name job_nonce device_uid owner_global_rank

section Expected

variable (page_size_long : Int)

/-- `expected_ring(context, device_uid, owner_global_rank, slot_count, slot_size,
max_message_size)`. -/
def expected_ring (job_nonce : UInt64 × UInt64) (device_uid : UInt64) (owner_global_rank : Int32)
    (slot_count slot_size max_message_size : UInt64) : posix_ring_expected_t :=
  ⟨owner_global_rank, device_uid, posix_ring_mapping_size page_size_long slot_count slot_size,
    slot_count, slot_size, max_message_size,
    make_object_name job_nonce device_uid owner_global_rank⟩

variable {page_size_long} {job_nonce : UInt64 × UInt64} {device_uid : UInt64}
  {owner_global_rank : Int32} {slot_count slot_size max_message_size : UInt64}
  {handle : posix_ring_handle_t}

/-- The handle `create` builds under the generated name is accepted against the expectation a
peer derives from the same arguments. -/
theorem validate_created_handle
    (hcreate : create page_size_long (make_object_name job_nonce device_uid owner_global_rank)
      owner_global_rank device_uid slot_count slot_size max_message_size = .ok handle) :
    validate_posix_ring_handle_expected page_size_long handle
      (expected_ring page_size_long job_nonce device_uid owner_global_rank slot_count slot_size
        max_message_size) = .ok () := by
  obtain ⟨hlen, hnul, hok, -, hrank, huid, hmap, hcount, hsize, hmax, hname⟩ := create_ok hcreate
  obtain ⟨-, hrank0, huid0, -, hmap0, -, hcap⟩ := validate_posix_ring_handle_ok hok
  subst hcount hsize hmax
  have hobj := make_posix_ring_name_objectName job_nonce device_uid owner_global_rank
  apply validate_posix_ring_handle_expected_of _ hok
  · simp only [expected_ring, hname, make_object_name, name_array]
    exact ⟨hrank, huid, hmap, trivial, trivial, trivial, (c_string_append_nul hobj.no_nul _).symm⟩
  · apply valid_expected_of
    · exact ⟨hrank ▸ hrank0, huid ▸ huid0⟩
    · exact ⟨hlen, hnul, hobj.valid_object_name_append Nat.one_pos⟩
    · exact ⟨hmap0, rfl, hcap⟩

/-- Against that expectation, the created handle is the only one accepted: a handle that differs
in any field, the bytes of its name array included, is rejected. -/
theorem eq_created_handle_of_validate
    (hcreate : create page_size_long (make_object_name job_nonce device_uid owner_global_rank)
      owner_global_rank device_uid slot_count slot_size max_message_size = .ok handle)
    {handle' : posix_ring_handle_t}
    (h : validate_posix_ring_handle_expected page_size_long handle'
      (expected_ring page_size_long job_nonce device_uid owner_global_rank slot_count slot_size
        max_message_size) = .ok ()) : handle' = handle := by
  obtain ⟨-, -, -, hver, hrank, huid, hmap, hcount, hsize, hmax, hname⟩ := create_ok hcreate
  obtain ⟨-, hok', hrank', huid', hmap', hcount', hsize', hmax', hname'⟩ :=
    validate_posix_ring_handle_expected_ok h
  obtain ⟨hver', -, -, hvalid', -⟩ := validate_posix_ring_handle_ok hok'
  simp only [expected_ring] at hrank' huid' hmap' hcount' hsize' hmax' hname'
  ext1
  · rw [hver, hver']
  · rw [hrank, hrank']
  · rw [huid, huid']
  · rw [hmap, hmap']
  · rw [hcount, hcount']
  · rw [hsize, hsize']
  · rw [hmax, hmax']
  · -- a valid array is the name array of its C string, which is the expected name
    rw [hname, eq_name_array_of_valid handle'.name_length hvalid', ← hname']

/-- `create` accepts the generated name for every identity and geometry that
`validate_posix_ring_handle` accepts, with a mapping of at most `OFF_T_MAX` bytes. -/
theorem create_make_object_name (hid : 0 ≤ owner_global_rank ∧ device_uid ≠ 0)
    (hgeo : posix_ring_mapping_size page_size_long slot_count slot_size ≠ 0 ∧
      max_message_size ≤ payload_capacity slot_size)
    (hoff : posix_ring_mapping_size page_size_long slot_count slot_size ≤ OFF_T_MAX) :
    ∃ handle, create page_size_long (make_object_name job_nonce device_uid owner_global_rank)
      owner_global_rank device_uid slot_count slot_size max_message_size = .ok handle := by
  have hobj := make_posix_ring_name_objectName job_nonce device_uid owner_global_rank
  have hlen := make_posix_ring_name_length job_nonce device_uid owner_global_rank
  have hcap : posix_ring_name_capacity = posix_ring_portable_name_max + 1 := rfl
  unfold make_object_name
  apply create_of (by omega) hobj.no_nul _ hid hgeo hoff
  exact hobj.valid_object_name_append (by omega)

end Expected

/-- **Object names and handle agreement.** Every generated name has at most
`posix_ring_portable_name_max` bytes and is accepted by `valid_object_name` both as the owner's
zero-filled array and as the peer's terminated string; owners of distinct nonnegative ranks get
distinct names; and for every geometry `create` accepts under the generated name, the handle it
publishes is accepted against the peer's `expected_ring` of the same arguments, and no other
handle is. -/
theorem posix_ring_names_agree (page_size_long : Int) :
    (∀ job_nonce device_uid owner_global_rank,
      let name := make_posix_ring_name job_nonce device_uid owner_global_rank
      name.length ≤ posix_ring_portable_name_max ∧ name.head? = some '/' ∧
        '/' ∉ name.drop 1 ∧ valid_object_name (name_array name) = true ∧
        valid_object_name (name ++ [NUL]) = true) ∧
    (∀ job_nonce device_uid (rank rank' : Int32), 0 ≤ rank → 0 ≤ rank' → rank ≠ rank' →
      make_posix_ring_name job_nonce device_uid rank ≠
        make_posix_ring_name job_nonce device_uid rank') ∧
    (∀ job_nonce device_uid owner_global_rank slot_count slot_size max_message_size handle,
      create page_size_long (make_object_name job_nonce device_uid owner_global_rank)
        owner_global_rank device_uid slot_count slot_size max_message_size = .ok handle →
      ∀ handle', validate_posix_ring_handle_expected page_size_long handle'
        (expected_ring page_size_long job_nonce device_uid owner_global_rank slot_count slot_size
          max_message_size) = .ok () ↔ handle' = handle) := by
  refine ⟨fun job_nonce device_uid owner_global_rank => ?_,
    fun job_nonce device_uid rank rank' hrank hrank' hne heq =>
      hne (make_posix_ring_name_rank_injective job_nonce device_uid hrank hrank' heq),
    fun job_nonce device_uid owner_global_rank slot_count slot_size max_message_size handle
      hcreate handle' => ⟨eq_created_handle_of_validate hcreate, ?_⟩⟩
  · have hobj := make_posix_ring_name_objectName job_nonce device_uid owner_global_rank
    have hlen := make_posix_ring_name_length job_nonce device_uid owner_global_rank
    refine ⟨hlen, hobj.head_slash, hobj.no_slash, hobj.valid_object_name_append ?_,
      hobj.valid_object_name_append Nat.one_pos⟩
    simp only [posix_ring_name_capacity]
    omega
  · rintro rfl
    exact validate_created_handle hcreate

/-- A ring of 64 slots of 256 bytes on pages of 4096 bytes, owned by rank 3 on device 7: `create`
publishes a handle, and it is the one handle accepted against the peer's expectation. -/
theorem posix_ring_names_agree_page :
    ∃ handle, create 4096 (make_object_name (1, 2) 7 3) 3 7 64 256 200 = .ok handle ∧
      ∀ handle', validate_posix_ring_handle_expected 4096 handle'
        (expected_ring 4096 (1, 2) 7 3 64 256 200) = .ok () ↔ handle' = handle := by
  obtain ⟨handle, hcreate⟩ := @create_make_object_name 4096 (1, 2) 7 3 64 256 200
    ⟨by decide, by decide⟩ ⟨by decide +kernel, by decide +kernel⟩ (by decide +kernel)
  exact ⟨handle, hcreate, (posix_ring_names_agree 4096).2.2 (1, 2) 7 3 64 256 200 handle hcreate⟩

end Lci.ShmRing
