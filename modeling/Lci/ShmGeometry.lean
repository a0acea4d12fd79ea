import Lci.ShmRing

/-! The geometry of a shared-memory ring and of the POSIX object that holds it. `required_size`
accepts a slot count and a slot size only if the count is a power of two of at most
`maximum_position`, a slot holds its header and is a whole number of cache lines, the payload of a
slot fits the `uint32_t` of its header, and a division test on `size_t` leaves room for the
`control_size` bytes of the two positions (`Accepted`): then `control_size + slot_count * slot_size`
does not wrap (`required_size_of_accepted`), the slot of every position lies inside the region
(`slot_at_inside`), and every payload `post_send` accepts fits the header's `payload_size`.
`posix_ring_mapping_size` rounds the size up to the page size, or gives 0 where that would wrap
(`posix_ring_mapping_size_spec`). The handle a ring's owner publishes and the peer's expectation
of it are checked by `validate_posix_ring_handle`, which recomputes the mapping size, so a geometry
`required_size` rejects is refused by `create` and by `attach`. -/

namespace Lci.ShmRing

/-- `std::numeric_limits<size_t>::max()`: `size_t` has 64 bits. -/
def SIZE_MAX : UInt64 := 0xFFFFFFFFFFFFFFFF

def UINT32_MAX : UInt64 := 0xFFFFFFFF

def OFF_T_MAX : UInt64 := 0x7FFFFFFFFFFFFFFF

/-- `LCI_CACHE_LINE`, with the value the build configures by default. -/
def CACHE_LINE : UInt64 := 64

/-- `ring_t::control_size`: one cache line for each of the two positions. -/
def control_size : UInt64 := 2 * CACHE_LINE

/-- `sizeof(slot_header_t)`: the sequence word, then the 32-bit `payload_size`, `imm_data` and
`source_global_rank`, padded to eight bytes. -/
def SLOT_HEADER_SIZE : UInt64 := 24

def is_power_of_two (value : UInt64) : Bool :=
  value != 0 && (value &&& (value - 1)) == 0

/-- `ring_t::required_size`: 0 for a geometry it rejects. -/
def required_size (slot_count slot_size : UInt64) : UInt64 :=
  if !is_power_of_two slot_count || decide (maximum_position < slot_count.toNat) ||
      decide (slot_size < SLOT_HEADER_SIZE) || slot_size % CACHE_LINE != 0 ||
      decide (UINT32_MAX < slot_size - SLOT_HEADER_SIZE) ||
      decide ((SIZE_MAX - control_size) / slot_size < slot_count) then 0
  else control_size + slot_count * slot_size

/-- `ring_t::payload_capacity`: the bytes of a slot behind its header. -/
def payload_capacity (slot_size : UInt64) : UInt64 :=
  if SLOT_HEADER_SIZE ≤ slot_size then slot_size - SLOT_HEADER_SIZE else 0

/-- `ring_t::slot_at`, as the offset of the slot's header from the start of the region. -/
def slot_at (slot_count slot_size position : UInt64) : UInt64 :=
  control_size + (position &&& (slot_count - 1)) * slot_size

/-- `posix_ring_mapping_size`, with `page_size_long` the `sysconf(_SC_PAGESIZE)` of the host. -/
def posix_ring_mapping_size (page_size_long : Int) (slot_count slot_size : UInt64) : UInt64 :=
  let required := required_size slot_count slot_size
  if required = 0 then 0
  else if page_size_long ≤ 0 ∨ (SIZE_MAX.toNat : Int) < page_size_long then 0
  else
    let page_size := UInt64.ofNat page_size_long.toNat
    if SIZE_MAX - (page_size - 1) < required then 0
    else ((required + page_size - 1) / page_size) * page_size

/-! ### The accepted geometries -/

theorem is_power_of_two_iff {value : UInt64} :
    is_power_of_two value = true ↔ value.toNat.isPowerOfTwo := by
  rw [← Nat.ne_zero_and_sub_one_eq_zero_iff_isPowerOfTwo]
  by_cases h0 : value = 0
  · subst h0
    simp [is_power_of_two]
  · have hne : value.toNat ≠ 0 := fun h => h0 (UInt64.toNat_inj.mp (by simpa using h))
    have h1 : (1 : UInt64) ≤ value := by
      rw [UInt64.le_iff_toNat_le]
      simp
      omega
    simp only [is_power_of_two, Bool.and_eq_true, bne_iff_ne, ne_eq, h0, not_false_eq_true,
      true_and, beq_iff_eq, hne]
    rw [← UInt64.toNat_inj, UInt64.toNat_and, UInt64.toNat_sub_of_le _ _ h1]
    simp

/-- What `required_size` checks, read on numbers: a power-of-two count of at most
`maximum_position`, a slot of at least its header and of whole cache lines, a payload that fits
32 bits, and a region of `control_size + slot_count * slot_size` bytes that fits `size_t`. -/
structure Accepted (slot_count slot_size : UInt64) : Prop where
  pow : slot_count.toNat.isPowerOfTwo
  count_le : slot_count.toNat ≤ maximum_position
  header_le : 24 ≤ slot_size.toNat
  line : slot_size.toNat % 64 = 0
  payload_le : slot_size.toNat - 24 ≤ 2 ^ 32 - 1
  fits : 128 + slot_count.toNat * slot_size.toNat < 2 ^ 64

section Required

variable {slot_count slot_size : UInt64}

theorem required_size_of_accepted (h : Accepted slot_count slot_size) :
    (required_size slot_count slot_size).toNat = 128 + slot_count.toNat * slot_size.toNat := by
  have hsub : (slot_size - SLOT_HEADER_SIZE).toNat = slot_size.toNat - 24 :=
    UInt64.toNat_sub_of_le _ _ (UInt64.le_iff_toNat_le.mpr h.header_le)
  have hroom : slot_count.toNat ≤ (2 ^ 64 - 1 - 128) / slot_size.toNat := by
    rw [Nat.le_div_iff_mul_le (by have := h.header_le; omega)]
    have := h.fits
    omega
  have hc : control_size.toNat = 128 := rfl
  have hfits := h.fits
  unfold required_size
  rw [if_neg]
  · rw [UInt64.toNat_add, UInt64.toNat_mul, hc, Nat.mod_eq_of_lt (by omega),
      Nat.mod_eq_of_lt (by omega)]
  · simp only [Bool.or_eq_true, Bool.not_eq_true', decide_eq_true_eq, bne_iff_ne, ne_eq,
      UInt64.lt_iff_toNat_lt, not_or, not_lt]
    refine ⟨⟨⟨⟨⟨?_, h.count_le⟩, h.header_le⟩, ?_⟩, ?_⟩, ?_⟩
    · simpa using is_power_of_two_iff.mpr h.pow
    · rw [not_not, ← UInt64.toNat_inj, UInt64.toNat_mod]
      exact h.line
    · rw [hsub]
      exact h.payload_le
    · rw [UInt64.toNat_div]
      exact hroom

theorem required_size_of_not_accepted (h : ¬ Accepted slot_count slot_size) :
    required_size slot_count slot_size = 0 := by
  unfold required_size
  rw [if_pos]
  by_contra hc
  simp only [Bool.or_eq_true, Bool.not_eq_true', decide_eq_true_eq, bne_iff_ne, ne_eq,
    UInt64.lt_iff_toNat_lt, not_or, not_lt] at hc
  obtain ⟨⟨⟨⟨⟨hpow, hcount⟩, hheader⟩, hline⟩, hpayload⟩, hroom⟩ := hc
  have hheader' : 24 ≤ slot_size.toNat := hheader
  apply h
  refine ⟨is_power_of_two_iff.mp (by simpa using hpow), hcount, hheader', ?_, ?_, ?_⟩
  · rw [not_not, ← UInt64.toNat_inj, UInt64.toNat_mod] at hline
    exact hline
  · rwa [UInt64.toNat_sub_of_le _ _ (UInt64.le_iff_toNat_le.mpr hheader)] at hpayload
  · rw [UInt64.toNat_div, Nat.le_div_iff_mul_le (by omega)] at hroom
    have : (SIZE_MAX - control_size).toNat = 2 ^ 64 - 1 - 128 := rfl
    omega

example : (required_size 4 128).toNat = 640 ∧ required_size 3 128 = 0 ∧ required_size 4 100 = 0 := by
  decide

theorem required_size_ne_zero_iff :
    required_size slot_count slot_size ≠ 0 ↔ Accepted slot_count slot_size := by
  constructor
  · intro h
    by_contra hna
    exact h (required_size_of_not_accepted hna)
  · intro h hzero
    have := required_size_of_accepted h
    rw [hzero, UInt64.toNat_zero] at this
    omega

theorem Accepted.index_lt (h : Accepted slot_count slot_size) (position : UInt64) :
    (position &&& (slot_count - 1)).toNat = position.toNat % slot_count.toNat ∧
      position.toNat % slot_count.toNat < slot_count.toNat := by
  obtain ⟨k, hk⟩ := h.pow
  have hpos : 0 < slot_count.toNat := by rw [hk]; exact Nat.two_pow_pos k
  have h1 : (1 : UInt64) ≤ slot_count := by rw [UInt64.le_iff_toNat_le]; simp; omega
  refine ⟨?_, Nat.mod_lt _ hpos⟩
  rw [UInt64.toNat_and, UInt64.toNat_sub_of_le _ _ h1, UInt64.toNat_one, hk,
    Nat.and_two_pow_sub_one_eq_mod]

/-- **The slot of every position lies inside the region**: its header starts after the two
positions and its `slot_size` bytes end at the latest where the region ends. -/
theorem slot_at_inside (h : Accepted slot_count slot_size) (position : UInt64) :
    (slot_at slot_count slot_size position).toNat =
        128 + position.toNat % slot_count.toNat * slot_size.toNat ∧
      (slot_at slot_count slot_size position).toNat + slot_size.toNat ≤
        (required_size slot_count slot_size).toNat := by
  obtain ⟨hidx, hlt⟩ := h.index_lt position
  have hfits := h.fits
  have hc : control_size.toNat = 128 := rfl
  have hend : position.toNat % slot_count.toNat * slot_size.toNat + slot_size.toNat ≤
      slot_count.toNat * slot_size.toNat := by
    rw [← Nat.succ_mul]
    exact Nat.mul_le_mul_right _ hlt
  have hoff : (slot_at slot_count slot_size position).toNat =
      128 + position.toNat % slot_count.toNat * slot_size.toNat := by
    rw [slot_at, UInt64.toNat_add, UInt64.toNat_mul, hidx, hc, Nat.mod_eq_of_lt (by omega),
      Nat.mod_eq_of_lt (by omega)]
  refine ⟨hoff, ?_⟩
  rw [hoff, required_size_of_accepted h]
  omega

/-- A payload of at most `max_payload_size()` bytes is stored in the `uint32_t` of the header
without truncation. -/
theorem payload_size_fits (h : Accepted slot_count slot_size) {size : Nat}
    (hsize : size ≤ (payload_capacity slot_size).toNat) : (UInt32.ofNat size).toNat = size := by
  have hcap : (payload_capacity slot_size).toNat = slot_size.toNat - 24 := by
    have hle : SLOT_HEADER_SIZE ≤ slot_size := UInt64.le_iff_toNat_le.mpr h.header_le
    rw [payload_capacity, if_pos hle, UInt64.toNat_sub_of_le _ _ hle]
    rfl
  have := h.payload_le
  rw [UInt32.toNat_ofNat', Nat.mod_eq_of_lt (by omega)]

end Required

/-! ### The mapping size -/

theorem round_up_least {r p : Nat} (hp : 0 < p) :
    p ∣ (r + p - 1) / p * p ∧ r ≤ (r + p - 1) / p * p ∧
      ∀ m, p ∣ m → r ≤ m → (r + p - 1) / p * p ≤ m := by
  refine ⟨Nat.dvd_mul_left _ _, ?_, ?_⟩
  · have := Nat.lt_div_mul_add (a := r + p - 1) hp
    omega
  · rintro m ⟨c, rfl⟩ hm
    have hq : (r + p - 1) / p < c + 1 := by
      rw [Nat.div_lt_iff_lt_mul hp, Nat.add_mul, Nat.one_mul, Nat.mul_comm]
      omega
    calc (r + p - 1) / p * p ≤ c * p := Nat.mul_le_mul_right _ (by omega)
      _ = p * c := Nat.mul_comm _ _

example : posix_ring_mapping_size 4096 4 128 = 4096 ∧ posix_ring_mapping_size 4096 64 128 = 12288 := by
  decide

theorem posix_ring_mapping_size_spec (page_size_long : Int) (slot_count slot_size : UInt64) :
    posix_ring_mapping_size page_size_long slot_count slot_size = 0 ∨
      (required_size slot_count slot_size ≠ 0 ∧ 0 < page_size_long ∧
        (posix_ring_mapping_size page_size_long slot_count slot_size).toNat =
          ((required_size slot_count slot_size).toNat + page_size_long.toNat - 1) /
            page_size_long.toNat * page_size_long.toNat) := by
  unfold posix_ring_mapping_size
  dsimp only
  split_ifs with hreq hpage hwrap
  · exact .inl rfl
  · exact .inl rfl
  · exact .inl rfl
  · right
    refine ⟨hreq, by omega, ?_⟩
    have hp : (UInt64.ofNat page_size_long.toNat).toNat = page_size_long.toNat := by
      rw [UInt64.toNat_ofNat', Nat.mod_eq_of_lt]
      have : SIZE_MAX.toNat = 2 ^ 64 - 1 := rfl
      omega
    have hmax : SIZE_MAX.toNat = 2 ^ 64 - 1 := rfl
    have hR := (required_size slot_count slot_size).toNat_lt
    rw [UInt64.lt_iff_toNat_lt, not_lt, UInt64.toNat_sub_of_le _ _ (by
      rw [UInt64.le_iff_toNat_le, UInt64.toNat_sub_of_le _ _ (by
        rw [UInt64.le_iff_toNat_le, hp]; simp; omega), hp]; omega),
      UInt64.toNat_sub_of_le _ _ (by rw [UInt64.le_iff_toNat_le, hp]; simp; omega), hp] at hwrap
    -- `required + page_size` may reach `2 ^ 64`, but subtracting one brings it back
    have hsum : (2 ^ 64 - 1 + ((required_size slot_count slot_size).toNat + page_size_long.toNat) %
        2 ^ 64) % 2 ^ 64 = (required_size slot_count slot_size).toNat + page_size_long.toNat - 1 := by
      simp only [UInt64.toNat_one] at hwrap
      omega
    rw [UInt64.toNat_mul, UInt64.toNat_div, UInt64.toNat_sub, UInt64.toNat_add, hp,
      UInt64.toNat_one, hsum, Nat.mod_eq_of_lt]
    calc _ ≤ (required_size slot_count slot_size).toNat + page_size_long.toNat - 1 :=
          Nat.div_mul_le_self _ _
      _ < 2 ^ 64 := by simp only [UInt64.toNat_one] at hwrap; omega

/-! ### The handle of a POSIX ring -/

/-- The `'\0'` that ends a C string. -/
def NUL : Char := Char.ofNat 0

def posix_ring_handle_version : UInt32 := 1

def posix_ring_portable_name_max : Nat := 30

/-- `posix_ring_name_capacity`: the name and its terminator. -/
def posix_ring_name_capacity : Nat := posix_ring_portable_name_max + 1

/-- `posix_ring_handle_t`; `name` is the `posix_ring_name_capacity` bytes of its array. -/
@[ext]
structure posix_ring_handle_t where
  version : UInt32
  owner_global_rank : Int32
  device_uid : UInt64
  mapping_size : UInt64
  slot_count : UInt64
  slot_size : UInt64
  max_message_size : UInt64
  name : List Char
  name_length : name.length = posix_ring_name_capacity

/-- `posix_ring_expected_t`; the `std::string` name is the list of its bytes. -/
structure posix_ring_expected_t where
  owner_global_rank : Int32
  device_uid : UInt64
  mapping_size : UInt64
  slot_count : UInt64
  slot_size : UInt64
  max_message_size : UInt64
  name : List Char

/-- `valid_object_name` on the `capacity` bytes of `name`: a terminator within them, a leading
`/`, at least one more byte and no other `/` before it, and only terminators after it. -/
def valid_object_name (name : List Char) : Bool :=
  match name.findIdx? (· == NUL) with
  | none => false
  | some size =>
    decide (2 ≤ size) && name.head? == some '/' && !((name.take size).drop 1).contains '/' &&
      (name.drop (size + 1)).all (· == NUL)

/-- The C string an array holds: its bytes up to the first terminator. -/
def c_string (name : List Char) : List Char := name.takeWhile (· != NUL)

section Validate

-- the page size of the host, as `sysconf(_SC_PAGESIZE)` returns it
variable (page_size_long : Int)

/-- `validate_posix_ring_handle(handle, error)`, with the message it sets. -/
def validate_posix_ring_handle (handle : posix_ring_handle_t) : Except String Unit :=
  if handle.version ≠ posix_ring_handle_version then
    .error "unsupported POSIX ring handle version"
  else if handle.owner_global_rank < 0 ∨ handle.device_uid = 0 then
    .error "invalid POSIX ring owner or device UID"
  else if !valid_object_name handle.name then
    .error "invalid POSIX shared-memory object name"
  else if SIZE_MAX < handle.slot_count ∨ SIZE_MAX < handle.slot_size then
    .error "POSIX ring geometry exceeds the local size type"
  else
    let mapping_size := posix_ring_mapping_size page_size_long handle.slot_count handle.slot_size
    if mapping_size = 0 ∨ handle.mapping_size ≠ mapping_size ∨
        payload_capacity handle.slot_size < handle.max_message_size then
      .error "inconsistent POSIX ring geometry or mapping size"
    else .ok ()

/-- `valid_expected`, with the message it sets. -/
def valid_expected (expected : posix_ring_expected_t) : Except String Unit :=
  if expected.owner_global_rank < 0 ∨ expected.device_uid = 0 then
    .error "invalid expected POSIX ring owner or device UID"
  else if posix_ring_name_capacity ≤ expected.name.length ∨ NUL ∈ expected.name ∨
      !valid_object_name (expected.name ++ [NUL]) then
    .error "invalid expected POSIX shared-memory object name"
  else if SIZE_MAX < expected.slot_count ∨ SIZE_MAX < expected.slot_size then
    .error "expected POSIX ring geometry exceeds local size type"
  else
    let mapping_size :=
      posix_ring_mapping_size page_size_long expected.slot_count expected.slot_size
    if mapping_size = 0 ∨ expected.mapping_size ≠ mapping_size ∨
        payload_capacity expected.slot_size < expected.max_message_size then
      .error "invalid expected POSIX ring geometry"
    else .ok ()

/-- `validate_posix_ring_handle(handle, expected, error)`: both checks, then every field of the
handle against the expectation. -/
def validate_posix_ring_handle_expected (handle : posix_ring_handle_t)
    (expected : posix_ring_expected_t) : Except String Unit := do
  valid_expected page_size_long expected
  validate_posix_ring_handle page_size_long handle
  if handle.owner_global_rank ≠ expected.owner_global_rank ∨
      handle.device_uid ≠ expected.device_uid ∨ handle.mapping_size ≠ expected.mapping_size ∨
      handle.slot_count ≠ expected.slot_count ∨ handle.slot_size ≠ expected.slot_size ∨
      handle.max_message_size ≠ expected.max_message_size ∨ expected.name ≠ c_string handle.name then
    .error "received POSIX ring handle does not match expected identity and geometry"
  else .ok ()

/-- The name array `create` fills: the name, its terminator and zeros. -/
def name_array (name : List Char) : List Char :=
  name ++ List.replicate (posix_ring_name_capacity - name.length) NUL

theorem name_array_length {name : List Char} (h : name.length < posix_ring_name_capacity) :
    (name_array name).length = posix_ring_name_capacity := by
  simp only [name_array, List.length_append, List.length_replicate]
  omega

/-- The checks of `posix_owner_mapping_t::create` before it opens the object, and the handle it
publishes. -/
def create (name : List Char) (owner_global_rank : Int32) (device_uid slot_count slot_size
    max_message_size : UInt64) : Except String posix_ring_handle_t :=
  if hname : posix_ring_name_capacity ≤ name.length ∨ NUL ∈ name then
    .error "POSIX shared-memory object name is too long"
  else
    let handle : posix_ring_handle_t :=
      ⟨posix_ring_handle_version, owner_global_rank, device_uid,
        posix_ring_mapping_size page_size_long slot_count slot_size, slot_count, slot_size,
        max_message_size, name_array name,
        name_array_length (Nat.lt_of_not_le (not_or.mp hname).1)⟩
    match validate_posix_ring_handle page_size_long handle with
    | .error e => .error e
    | .ok () =>
      if OFF_T_MAX < handle.mapping_size then .error "invalid POSIX ring allocation arguments"
      else .ok handle

/-- The checks of `posix_peer_mapping_t::attach` before it opens the object. -/
def attach (handle : posix_ring_handle_t) (expected : posix_ring_expected_t) :
    Except String Unit :=
  validate_posix_ring_handle_expected page_size_long handle expected

variable {page_size_long}

theorem validate_posix_ring_handle_ok {handle : posix_ring_handle_t}
    (h : validate_posix_ring_handle page_size_long handle = .ok ()) :
    handle.version = posix_ring_handle_version ∧ 0 ≤ handle.owner_global_rank ∧
      handle.device_uid ≠ 0 ∧ valid_object_name handle.name = true ∧
      posix_ring_mapping_size page_size_long handle.slot_count handle.slot_size ≠ 0 ∧
      handle.mapping_size = posix_ring_mapping_size page_size_long handle.slot_count handle.slot_size ∧
      handle.max_message_size ≤ payload_capacity handle.slot_size := by
  unfold validate_posix_ring_handle at h
  dsimp only at h
  split_ifs at h with hv hid hname hsize hgeo
  simp only [not_or, Int32.not_lt, UInt64.not_lt, Bool.not_eq_true', Bool.not_eq_false, ne_eq, not_not]
    at hv hid hname hgeo
  exact ⟨hv, hid.1, hid.2, hname, hgeo.1, hgeo.2.1, hgeo.2.2⟩

theorem valid_expected_ok {expected : posix_ring_expected_t}
    (h : valid_expected page_size_long expected = .ok ()) :
    0 ≤ expected.owner_global_rank ∧ expected.device_uid ≠ 0 ∧
      expected.name.length < posix_ring_name_capacity ∧ NUL ∉ expected.name ∧
      valid_object_name (expected.name ++ [NUL]) = true ∧
      posix_ring_mapping_size page_size_long expected.slot_count expected.slot_size ≠ 0 ∧
      expected.mapping_size =
        posix_ring_mapping_size page_size_long expected.slot_count expected.slot_size ∧
      expected.max_message_size ≤ payload_capacity expected.slot_size := by
  unfold valid_expected at h
  dsimp only at h
  split_ifs at h with hid hname hsize hgeo
  simp only [not_or, Int32.not_lt, UInt64.not_lt, Bool.not_eq_true', Bool.not_eq_false, ne_eq, not_not,
    not_le] at hid hname hgeo
  exact ⟨hid.1, hid.2, hname.1, hname.2.1, hname.2.2, hgeo.1, hgeo.2.1, hgeo.2.2⟩

/-- A handle accepted against an expectation passes both checks and agrees with it field by
field, its name read as a C string. -/
theorem validate_posix_ring_handle_expected_ok {handle : posix_ring_handle_t}
    {expected : posix_ring_expected_t}
    (h : validate_posix_ring_handle_expected page_size_long handle expected = .ok ()) :
    valid_expected page_size_long expected = .ok () ∧
      validate_posix_ring_handle page_size_long handle = .ok () ∧
      handle.owner_global_rank = expected.owner_global_rank ∧
      handle.device_uid = expected.device_uid ∧ handle.mapping_size = expected.mapping_size ∧
      handle.slot_count = expected.slot_count ∧ handle.slot_size = expected.slot_size ∧
      handle.max_message_size = expected.max_message_size ∧ expected.name = c_string handle.name := by
  unfold validate_posix_ring_handle_expected at h
  cases he : valid_expected page_size_long expected with
  | error e => simp [he] at h; cases h
  | ok u =>
    cases hv : validate_posix_ring_handle page_size_long handle with
    | error e => simp [he, hv] at h; cases h
    | ok w =>
      simp only [he, hv, bind, Except.bind, ne_eq] at h
      split_ifs at h with hdiff
      simp only [not_or, not_not] at hdiff
      exact ⟨rfl, rfl, hdiff⟩

theorem not_SIZE_MAX_lt (value : UInt64) : ¬ SIZE_MAX < value := by
  have hmax : SIZE_MAX.toNat = 2 ^ 64 - 1 := rfl
  have := value.toNat_lt
  rw [UInt64.lt_iff_toNat_lt, hmax]
  omega

theorem valid_expected_of {expected : posix_ring_expected_t}
    (hid : 0 ≤ expected.owner_global_rank ∧ expected.device_uid ≠ 0)
    (hname : expected.name.length < posix_ring_name_capacity ∧ NUL ∉ expected.name ∧
      valid_object_name (expected.name ++ [NUL]) = true)
    (hgeo : posix_ring_mapping_size page_size_long expected.slot_count expected.slot_size ≠ 0 ∧
      expected.mapping_size =
        posix_ring_mapping_size page_size_long expected.slot_count expected.slot_size ∧
      expected.max_message_size ≤ payload_capacity expected.slot_size) :
    valid_expected page_size_long expected = .ok () := by
  unfold valid_expected
  rw [if_neg (by simp only [not_or, Int32.not_lt]; exact hid), if_neg (by simp [hname]),
    if_neg (by simp only [not_or, not_SIZE_MAX_lt, not_false_eq_true, and_self])]
  simp [hgeo, UInt64.not_lt]

theorem validate_posix_ring_handle_of {handle : posix_ring_handle_t}
    (hv : handle.version = posix_ring_handle_version)
    (hid : 0 ≤ handle.owner_global_rank ∧ handle.device_uid ≠ 0)
    (hname : valid_object_name handle.name = true)
    (hgeo : posix_ring_mapping_size page_size_long handle.slot_count handle.slot_size ≠ 0 ∧
      handle.mapping_size = posix_ring_mapping_size page_size_long handle.slot_count handle.slot_size ∧
      handle.max_message_size ≤ payload_capacity handle.slot_size) :
    validate_posix_ring_handle page_size_long handle = .ok () := by
  unfold validate_posix_ring_handle
  rw [if_neg (not_not.mpr hv), if_neg (by simp only [not_or, Int32.not_lt]; exact hid),
    if_neg (by simp [hname]),
    if_neg (by simp only [not_or, not_SIZE_MAX_lt, not_false_eq_true, and_self])]
  simp [hgeo, UInt64.not_lt]

/-- The converse of `validate_posix_ring_handle_expected_ok`: a handle that passes both checks and
agrees with the expectation field by field is accepted. -/
theorem validate_posix_ring_handle_expected_of {handle : posix_ring_handle_t}
    {expected : posix_ring_expected_t} (he : valid_expected page_size_long expected = .ok ())
    (hv : validate_posix_ring_handle page_size_long handle = .ok ())
    (hagree : handle.owner_global_rank = expected.owner_global_rank ∧
      handle.device_uid = expected.device_uid ∧ handle.mapping_size = expected.mapping_size ∧
      handle.slot_count = expected.slot_count ∧ handle.slot_size = expected.slot_size ∧
      handle.max_message_size = expected.max_message_size ∧ expected.name = c_string handle.name) :
    validate_posix_ring_handle_expected page_size_long handle expected = .ok () := by
  obtain ⟨h1, h2, h3, h4, h5, h6, h7⟩ := hagree
  simp [validate_posix_ring_handle_expected, he, hv, h1, h2, h3, h4, h5, h6, h7, bind,
    Except.bind]

/-- What `create` accepts: a name that fits with its terminator, and a handle that
`validate_posix_ring_handle` accepts and that carries the arguments and the name array. -/
theorem create_ok {name : List Char} {owner_global_rank : Int32}
    {device_uid slot_count slot_size max_message_size : UInt64} {handle : posix_ring_handle_t}
    (h : create page_size_long name owner_global_rank device_uid slot_count slot_size
      max_message_size = .ok handle) :
    name.length < posix_ring_name_capacity ∧ NUL ∉ name ∧
      validate_posix_ring_handle page_size_long handle = .ok () ∧
      handle.version = posix_ring_handle_version ∧
      handle.owner_global_rank = owner_global_rank ∧ handle.device_uid = device_uid ∧
      handle.mapping_size = posix_ring_mapping_size page_size_long slot_count slot_size ∧
      handle.slot_count = slot_count ∧ handle.slot_size = slot_size ∧
      handle.max_message_size = max_message_size ∧ handle.name = name_array name := by
  unfold create at h
  split_ifs at h with hname
  dsimp only at h
  split at h
  · cases h
  · rename_i hok
    split_ifs at h
    cases h
    simp only [not_or, not_le] at hname
    exact ⟨hname.1, hname.2, hok, rfl, rfl, rfl, rfl, rfl, rfl, rfl, rfl⟩

/-- The converse of `create_ok`: a name that fits with its terminator and whose array is a valid
object name, an identity and a geometry `validate_posix_ring_handle` accepts, and a mapping of at
most `OFF_T_MAX` bytes, is created. -/
theorem create_of {name : List Char} {owner_global_rank : Int32}
    {device_uid slot_count slot_size max_message_size : UInt64}
    (hlen : name.length < posix_ring_name_capacity) (hnul : NUL ∉ name)
    (hvalid : valid_object_name (name_array name) = true)
    (hid : 0 ≤ owner_global_rank ∧ device_uid ≠ 0)
    (hgeo : posix_ring_mapping_size page_size_long slot_count slot_size ≠ 0 ∧
      max_message_size ≤ payload_capacity slot_size)
    (hoff : posix_ring_mapping_size page_size_long slot_count slot_size ≤ OFF_T_MAX) :
    ∃ handle, create page_size_long name owner_global_rank device_uid slot_count slot_size
      max_message_size = .ok handle := by
  unfold create
  rw [dif_neg (by simp only [not_or, not_le]; exact ⟨hlen, hnul⟩)]
  dsimp only
  split
  · rename_i e he
    rw [validate_posix_ring_handle_of] at he
    · cases he
    · rfl
    · exact hid
    · exact hvalid
    · exact ⟨hgeo.1, rfl, hgeo.2⟩
  · exact ⟨_, if_neg (UInt64.not_lt.mpr hoff)⟩

section Rejected

variable {slot_count slot_size : UInt64} (hzero : required_size slot_count slot_size = 0)
include hzero

theorem mapping_size_of_rejected :
    posix_ring_mapping_size page_size_long slot_count slot_size = 0 := by
  simp [posix_ring_mapping_size, hzero]

theorem validate_of_rejected {handle : posix_ring_handle_t} (hc : handle.slot_count = slot_count)
    (hs : handle.slot_size = slot_size) :
    validate_posix_ring_handle page_size_long handle ≠ .ok () := by
  intro hok
  apply (validate_posix_ring_handle_ok hok).2.2.2.2.1
  rw [hc, hs]
  exact mapping_size_of_rejected hzero

theorem valid_expected_of_rejected {expected : posix_ring_expected_t}
    (hc : expected.slot_count = slot_count) (hs : expected.slot_size = slot_size) :
    valid_expected page_size_long expected ≠ .ok () := by
  intro hok
  apply (valid_expected_ok hok).2.2.2.2.2.1
  rw [hc, hs]
  exact mapping_size_of_rejected hzero

theorem create_of_rejected (name : List Char) (owner_global_rank : Int32)
    (device_uid max_message_size : UInt64) (handle : posix_ring_handle_t) :
    create page_size_long name owner_global_rank device_uid slot_count slot_size
      max_message_size ≠ .ok handle := by
  unfold create
  split_ifs with hname
  · simp
  · -- the handle it builds carries the geometry, which `validate_posix_ring_handle` refuses
    dsimp only
    split
    · simp
    · rename_i hok
      exact absurd hok (validate_of_rejected hzero rfl rfl)

end Rejected

end Validate

/-- **Ring geometry.** For a slot count and slot size that `required_size` accepts, the region
`control_size + slot_count * slot_size` is computed without wrapping, the header and the
`slot_size` bytes of every position's slot lie inside it, every payload of at most
`max_payload_size()` bytes fits the `uint32_t` of the header, and the mapping size is 0 or the
least multiple of the page size that holds the region. For a geometry it rejects, the mapping size
is 0 and `create` and `attach` refuse it, carried by the handle or by the expectation. -/
theorem ring_geometry_arithmetic (page_size_long : Int) (slot_count slot_size : UInt64) :
    (required_size slot_count slot_size ≠ 0 →
      128 + slot_count.toNat * slot_size.toNat < 2 ^ 64 ∧
      (required_size slot_count slot_size).toNat = 128 + slot_count.toNat * slot_size.toNat ∧
      (∀ position, 128 ≤ (slot_at slot_count slot_size position).toNat ∧
        (slot_at slot_count slot_size position).toNat + slot_size.toNat ≤
          (required_size slot_count slot_size).toNat) ∧
      (∀ size ≤ (payload_capacity slot_size).toNat, (UInt32.ofNat size).toNat = size) ∧
      (posix_ring_mapping_size page_size_long slot_count slot_size = 0 ∨
        (0 < page_size_long ∧
          page_size_long.toNat ∣ (posix_ring_mapping_size page_size_long slot_count slot_size).toNat ∧
          (required_size slot_count slot_size).toNat ≤
            (posix_ring_mapping_size page_size_long slot_count slot_size).toNat ∧
          ∀ m, page_size_long.toNat ∣ m → (required_size slot_count slot_size).toNat ≤ m →
            (posix_ring_mapping_size page_size_long slot_count slot_size).toNat ≤ m))) ∧
    (required_size slot_count slot_size = 0 →
      posix_ring_mapping_size page_size_long slot_count slot_size = 0 ∧
      (∀ name owner_global_rank device_uid max_message_size handle,
        create page_size_long name owner_global_rank device_uid slot_count slot_size
          max_message_size ≠ .ok handle) ∧
      (∀ handle expected, (handle.slot_count = slot_count ∧ handle.slot_size = slot_size) ∨
        (expected.slot_count = slot_count ∧ expected.slot_size = slot_size) →
        attach page_size_long handle expected ≠ .ok ())) := by
  refine ⟨fun hne => ?_, fun hzero => ?_⟩
  · have hacc := required_size_ne_zero_iff.mp hne
    refine ⟨hacc.fits, required_size_of_accepted hacc, fun position => ?_,
      fun size hsize => payload_size_fits hacc hsize, ?_⟩
    · obtain ⟨hoff, hend⟩ := slot_at_inside hacc position
      exact ⟨by omega, hend⟩
    · -- the rounding is the least multiple of the page size above the region
      rcases posix_ring_mapping_size_spec page_size_long slot_count slot_size with h0 | ⟨-, hpage, hval⟩
      · exact .inl h0
      · obtain ⟨hdvd, hle, hleast⟩ := round_up_least (r := (required_size slot_count slot_size).toNat)
          (show 0 < page_size_long.toNat by omega)
        rw [hval]
        exact .inr ⟨hpage, hdvd, hle, hleast⟩
  · refine ⟨mapping_size_of_rejected hzero, fun name r uid mms handle =>
      create_of_rejected hzero name r uid mms handle, fun handle expected hside hok => ?_⟩
    obtain ⟨he, hv, -⟩ := validate_posix_ring_handle_expected_ok hok
    rcases hside with ⟨hc, hs⟩ | ⟨hc, hs⟩
    · exact validate_of_rejected hzero hc hs hv
    · exact valid_expected_of_rejected hzero hc hs he

end Lci.ShmRing
