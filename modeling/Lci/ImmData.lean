import Lci.Bits

/-! The message format of eager sends and of the rendezvous control messages. `post_comm_x`
chooses a protocol (`set_protocol`), builds a 32-bit immediate word (`set_immediate_data`) and
sends the payload, with the tag and the remote handler appended when they do not fit the word
(`set_packet_if_needed`). The receiver decodes the word in `progress_recv` (and, for an RDMA write
with immediate data, in `progress_remote_write`): bit 31 marks the fast path, whose tag and
remote handler are read with the fixed widths 16 and 15; otherwise bits 29-30 give the message
kind, and an eager message carries its tag and remote handler in its last twelve bytes.

The writer packs the fast path with the widths of the runtime attributes, the reader with the
default widths: the two agree when the attributes are no wider than the defaults
(`post_comm_round_trip`), and not in general (`wide_tag_attr_misreads_tag`). A build without CUDA
or HIP sends device and unknown memory by zero copy, without the metadata the word cannot hold
(`unknown_mr_misreads_metadata`). -/

namespace Lci.ImmData

open Bits

def IMM_DATA_MSG_EAGER : BitVec 32 := 0
def IMM_DATA_MSG_RTS : BitVec 32 := 1
def IMM_DATA_MSG_RTR : BitVec 32 := 2
def IMM_DATA_MSG_FIN : BitVec 32 := 3

/-- The runtime attributes the immediate word depends on, as `alloc_runtime_x` and
`g_runtime_init_x` accept them: their `LCI_Assert` bounds the two widths by 31 together. -/
structure RuntimeAttr where
  imm_nbits_tag : Nat
  imm_nbits_rcomp : Nat
  nbits_le : imm_nbits_tag + imm_nbits_rcomp ≤ 31

/-- `runtime_impl_t::initialize`: `(1ULL << imm_nbits_tag) - 1`. -/
def RuntimeAttr.max_imm_tag (a : RuntimeAttr) : Nat := 2 ^ a.imm_nbits_tag - 1

/-- `runtime_impl_t::initialize`: `(1ULL << imm_nbits_rcomp) - 1`. -/
def RuntimeAttr.max_imm_rcomp (a : RuntimeAttr) : Nat := 2 ^ a.imm_nbits_rcomp - 1

/-- The defaults of the runtime attributes: 16 tag bits and 15 remote-handler bits. -/
def RuntimeAttr.default : RuntimeAttr := ⟨16, 15, by norm_num⟩

inductive Direction
  | OUT
  | IN
  deriving DecidableEq, Repr

inductive Protocol
  | none
  | inject
  | eager_bcopy
  | eager_zcopy
  | rdv_zcopy
  | recv
  deriving DecidableEq, Repr

inductive CompSemantic
  | memory
  | network
  deriving DecidableEq, Repr

/-- The memory region passed with a buffer: one of the sentinels `MR_HOST`, `MR_DEVICE` and
`MR_UNKNOWN`, or a registered region, on the device or not. -/
inductive Mr
  | host
  | device
  | unknown
  | registered (on_device : Bool)
  deriving DecidableEq, Repr

/-- `mr_t::is_empty`: the three sentinels are the pointers below 3. -/
def Mr.is_empty : Mr → Bool
  | .registered _ => false
  | _ => true

/-- `mr_may_be_device_memory`; `gpu` says whether the library is built with CUDA or HIP. -/
def mr_may_be_device_memory (gpu : Bool) : Mr → Bool
  | .device => true
  | .unknown => true
  | .registered on_device => gpu && on_device
  | .host => false

/-- The `force_zcopy` of `set_protocol`: device memory in a build with CUDA or HIP. -/
def force_zcopy (gpu : Bool) : Mr → Bool
  | .device => gpu
  | .registered on_device => gpu && on_device
  | _ => false

/-- The arguments of `post_comm_x` that the protocol and the immediate word depend on.
`local_buffer_only` is an empty `rmr`; `tag` is a `tag_t`, below `2 ^ 64`. -/
structure PostArgs where
  direction : Direction
  local_buffer_only : Bool
  size : Nat
  tag : Nat
  comp_semantic : CompSemantic
  mr : Mr

/-- `post_comm_traits_t`: the limits of the network context and of the packet pool. -/
structure Traits where
  max_inject_size : Nat
  max_bcopy_size : Nat

/-- `sizeof(tag_t)` and `sizeof(rcomp_t)`: the bytes appended when the metadata travels in the
payload. -/
def TAG_SIZE : Nat := 8
def RCOMP_SIZE : Nat := 4

/-- `msg_size -= k` on a `size_t` below `2 ^ 64`: under `k` it wraps around. -/
def size_t_sub (msg_size k : Nat) : Nat := if k ≤ msg_size then msg_size - k else 2 ^ 64 - (k - msg_size)

theorem size_t_sub_of_le {msg_size k : Nat} (h : k ≤ msg_size) : size_t_sub msg_size k = msg_size - k :=
  if_pos h

theorem size_t_sub_sub (msg_size a b : Nat) (h : a + b ≤ 2 ^ 64) :
    size_t_sub (size_t_sub msg_size a) b = size_t_sub msg_size (a + b) := by
  unfold size_t_sub
  split_ifs <;> omega

section Encode

variable (attr : RuntimeAttr) (args : PostArgs) (rhandler : Nat)

def eager_payload_needs_metadata : Bool :=
  args.direction == .OUT && rhandler != 0 &&
    (decide (args.tag > attr.max_imm_tag) || decide (rhandler > attr.max_imm_rcomp))

/-- The `msg_size_if_eager` of `set_protocol`. -/
def msg_size_if_eager : Nat :=
  if args.direction = .OUT ∧ rhandler ≠ 0 ∧ eager_payload_needs_metadata attr args rhandler
  then args.size + TAG_SIZE + RCOMP_SIZE else args.size

/-- `set_protocol`: the protocol, and whether the tag and the remote handler ride in the
payload (`piggyback_tag_rcomp_in_msg`). -/
def set_protocol (gpu : Bool) (traits : Traits) : Protocol × Bool :=
  let size := msg_size_if_eager attr args rhandler
  let needs_metadata := decide (size > args.size)
  let fz := force_zcopy gpu args.mr
  if args.direction = .IN ∧ args.local_buffer_only then (.recv, false)
  else if args.direction = .OUT ∧ args.local_buffer_only ∧
      (size > traits.max_bcopy_size ∨ fz = true) then (.rdv_zcopy, false)
  else if size ≤ traits.max_inject_size ∧ args.direction = .OUT ∧
      args.comp_semantic = .memory ∧ fz = false ∧ needs_metadata = false then (.inject, false)
  else if (args.mr.is_empty = true ∨ needs_metadata = true) ∧ size ≤ traits.max_bcopy_size ∧
      mr_may_be_device_memory gpu args.mr = false ∧ fz = false then (.eager_bcopy, needs_metadata)
  else (.eager_zcopy, false)

/-- The fast-path word: bit 31 set, the tag at bit 0 and the remote handler at bit 16, with the
widths of the attributes. -/
def fastpath_imm : BitVec 32 :=
  let imm := set_bits32 0 1 1 31
  let imm := set_bits32 imm (BitVec.ofNat 32 args.tag) attr.imm_nbits_tag 0
  set_bits32 imm (BitVec.ofNat 32 rhandler) attr.imm_nbits_rcomp 16

def set_immediate_data (protocol : Protocol) : BitVec 32 :=
  if protocol = .rdv_zcopy then set_bits32 0 IMM_DATA_MSG_RTS 2 29
  else if args.direction = .OUT ∧ rhandler ≠ 0 then
    if args.tag ≤ attr.max_imm_tag ∧ rhandler ≤ attr.max_imm_rcomp then fastpath_imm attr args rhandler
    else 0
  else 0

end Encode

/-- A message on the wire: the immediate word and the bytes. -/
structure NetMsg where
  imm_data : BitVec 32
  bytes : List UInt8
  deriving DecidableEq, Repr

/-- What an eager protocol sends for the payload `data` (`set_packet_if_needed` and
`post_network_op`): a buffer copy carries the tag and the remote handler after the payload when
it piggybacks them; inject and zero copy send the payload alone. -/
def eager_message (args : PostArgs) (rhandler : Nat) (protocol : Protocol) (piggyback : Bool)
    (imm_data : BitVec 32) (data : List UInt8) : NetMsg :=
  match protocol with
  | .eager_bcopy =>
      ⟨imm_data, if piggyback then data ++ bytesLE TAG_SIZE args.tag ++ bytesLE RCOMP_SIZE rhandler
        else data⟩
  | _ => ⟨imm_data, data⟩

/-- The steps of `post_comm_x` for an outgoing message: protocol, immediate word, bytes. -/
def post_comm (gpu : Bool) (attr : RuntimeAttr) (traits : Traits) (args : PostArgs)
    (rhandler : Nat) (data : List UInt8) : Protocol × NetMsg :=
  let p := set_protocol attr args rhandler gpu traits
  (p.1, eager_message args rhandler p.1 p.2 (set_immediate_data attr args rhandler p.1) data)

/-- What `progress_recv` reads from a message before dispatching on its kind. -/
structure Received where
  msg_type : BitVec 32
  tag : Nat
  remote_comp : Nat
  msg_size : Nat
  payload : List UInt8
  deriving DecidableEq, Repr

/-- The decoding part of `progress_recv`. -/
def progress_recv (m : NetMsg) : Received :=
  if get_bits32 m.imm_data 1 31 ≠ 0 then
    ⟨IMM_DATA_MSG_EAGER, (get_bits32 m.imm_data 16 0).toNat, (get_bits32 m.imm_data 15 16).toNat,
      m.bytes.length, m.bytes⟩
  else
    let msg_type := get_bits32 m.imm_data 2 29
    if msg_type = IMM_DATA_MSG_EAGER then
      -- the remote handler, then the tag, are the last bytes of the payload; under twelve bytes
      -- the size wraps and the offsets lie past the message, where the model reads no bytes
      let n := size_t_sub m.bytes.length RCOMP_SIZE
      let remote_comp := ofBytesLE ((m.bytes.drop n).take RCOMP_SIZE)
      let n := size_t_sub n TAG_SIZE
      let tag := ofBytesLE ((m.bytes.drop n).take TAG_SIZE)
      ⟨msg_type, tag, remote_comp, n, m.bytes.take n⟩
    else ⟨msg_type, 0, 0, m.bytes.length, m.bytes⟩

/-- What `progress_remote_write` makes of the immediate word of an RDMA write. -/
inductive RemoteWrite
  | signal (tag remote_comp : Nat)
  | fin (archive_tag : Nat)
  | not_implemented (msg_type : BitVec 32)
  deriving DecidableEq, Repr

/-- The decoding part of `progress_remote_write`; `tag_bits` is that of `rdv_imm_archive`. -/
def progress_remote_write (tag_bits : Nat) (imm_data : BitVec 32) : RemoteWrite :=
  if get_bits32 imm_data 1 31 ≠ 0 then
    .signal (get_bits32 imm_data 16 0).toNat (get_bits32 imm_data 15 16).toNat
  else if get_bits32 imm_data 2 29 = IMM_DATA_MSG_FIN then
    .fin (get_bits32 imm_data tag_bits 0).toNat
  else .not_implemented (get_bits32 imm_data 2 29)

/-! ### The protocol choice -/

section Choice

variable {attr : RuntimeAttr} {args : PostArgs} {rhandler : Nat}

theorem msg_size_if_eager_of_needs (h : eager_payload_needs_metadata attr args rhandler = true) :
    msg_size_if_eager attr args rhandler = args.size + TAG_SIZE + RCOMP_SIZE := by
  have hout : args.direction = .OUT ∧ rhandler ≠ 0 := by
    simp only [eager_payload_needs_metadata, Bool.and_eq_true, beq_iff_eq, bne_iff_ne] at h
    exact ⟨h.1.1, h.1.2⟩
  simp [msg_size_if_eager, hout, h]

theorem msg_size_if_eager_of_not_needs (h : eager_payload_needs_metadata attr args rhandler = false) :
    msg_size_if_eager attr args rhandler = args.size := by
  simp [msg_size_if_eager, h]

theorem set_protocol_piggyback {gpu : Bool} {traits : Traits}
    (h : (set_protocol attr args rhandler gpu traits).2 = true) :
    (set_protocol attr args rhandler gpu traits).1 = .eager_bcopy ∧
      eager_payload_needs_metadata attr args rhandler = true := by
  cases hn : eager_payload_needs_metadata attr args rhandler
  · simp only [set_protocol, msg_size_if_eager_of_not_needs hn, gt_iff_lt, lt_self_iff_false,
      decide_false] at h
    split_ifs at h
  · refine ⟨?_, rfl⟩
    simp only [set_protocol] at h ⊢
    split_ifs at h ⊢
    simp_all

/-- An outgoing send whose metadata does not fit the immediate word, on memory that is known to
be on the host or is forced to zero copy, goes by rendezvous or by a buffer copy that carries the
metadata. -/
theorem set_protocol_of_needs {gpu : Bool} {traits : Traits}
    (hn : eager_payload_needs_metadata attr args rhandler = true)
    (hlocal : args.local_buffer_only = true)
    (hmr : mr_may_be_device_memory gpu args.mr = true → force_zcopy gpu args.mr = true)
    (hrdv : (set_protocol attr args rhandler gpu traits).1 ≠ .rdv_zcopy) :
    set_protocol attr args rhandler gpu traits = (.eager_bcopy, true) := by
  have hout : args.direction = .OUT := by
    simp only [eager_payload_needs_metadata, Bool.and_eq_true, beq_iff_eq] at hn
    exact hn.1.1
  have hsize := msg_size_if_eager_of_needs hn
  have hgt : msg_size_if_eager attr args rhandler > args.size := by
    rw [hsize, TAG_SIZE, RCOMP_SIZE]; omega
  by_cases hr : msg_size_if_eager attr args rhandler > traits.max_bcopy_size ∨
      force_zcopy gpu args.mr = true
  · exfalso
    apply hrdv
    simp [set_protocol, hout, hlocal, hr]
  · -- the buffer is on the host, as zero copy is not forced
    have hfz : force_zcopy gpu args.mr = false := by simpa using (not_or.mp hr).2
    have hle : msg_size_if_eager attr args rhandler ≤ traits.max_bcopy_size :=
      Nat.not_lt.mp (not_or.mp hr).1
    have hdev : mr_may_be_device_memory gpu args.mr = false := by
      cases hd : mr_may_be_device_memory gpu args.mr
      · rfl
      · simp [hmr hd] at hfz
    simp [set_protocol, hout, hlocal, hgt, hfz, hle, hdev]

theorem set_protocol_ne_rdv {gpu : Bool} {traits : Traits}
    (hle : msg_size_if_eager attr args rhandler ≤ traits.max_bcopy_size)
    (hfz : force_zcopy gpu args.mr = false) :
    (set_protocol attr args rhandler gpu traits).1 ≠ .rdv_zcopy := by
  have hrdv : ¬ (msg_size_if_eager attr args rhandler > traits.max_bcopy_size ∨
      force_zcopy gpu args.mr = true) := by
    simp [hfz, Nat.not_lt.mpr hle]
  simp only [set_protocol, hrdv, and_false, if_false]
  split_ifs <;> simp

end Choice

/-! ### Decoding -/

theorem ofNat_toNat_of_le_max {n w : Nat} (hw : w ≤ 31) (hn : n ≤ 2 ^ w - 1) :
    (BitVec.ofNat 32 n).toNat = n := by
  have : 2 ^ w ≤ 2 ^ 32 := Nat.pow_le_pow_right (by norm_num) (by omega)
  rw [BitVec.toNat_ofNat, Nat.mod_eq_of_lt (by omega)]

section Fastpath

variable (attr : RuntimeAttr) (args : PostArgs) (rhandler : Nat)

/-- The fast-path word, read with the widths of the defaults, has its flag set and gives back the
tag and the remote handler, when the attributes are no wider than the defaults. -/
theorem fastpath_imm_fields (htw : attr.imm_nbits_tag ≤ 16) (hrw : attr.imm_nbits_rcomp ≤ 15)
    (htag : args.tag ≤ attr.max_imm_tag) (hrh : rhandler ≤ attr.max_imm_rcomp) :
    get_bits32 (fastpath_imm attr args rhandler) 1 31 = 1 ∧
      (get_bits32 (fastpath_imm attr args rhandler) 16 0).toNat = args.tag ∧
      (get_bits32 (fastpath_imm attr args rhandler) 15 16).toNat = rhandler := by
  have ht := ofNat_toNat_of_le_max (by omega) htag
  have hr := ofNat_toNat_of_le_max (by omega) hrh
  have htlt : (BitVec.ofNat 32 args.tag).toNat < 2 ^ attr.imm_nbits_tag := by
    rw [ht]; have := Nat.one_le_two_pow (n := attr.imm_nbits_tag); unfold RuntimeAttr.max_imm_tag at htag; omega
  have hrlt : (BitVec.ofNat 32 rhandler).toNat < 2 ^ attr.imm_nbits_rcomp := by
    rw [hr]; have := Nat.one_le_two_pow (n := attr.imm_nbits_rcomp); unfold RuntimeAttr.max_imm_rcomp at hrh; omega
  refine ⟨?_, ?_, ?_⟩
  · rw [fastpath_imm, get_set_bits32_of_disjoint _ _ (by omega),
      get_set_bits32_of_disjoint _ _ (by omega), get_set_bits32 _ _ (by norm_num) (by decide)]
  · rw [fastpath_imm, get_set_bits32_of_disjoint _ _ (by omega),
      get_set_bits32_wide _ _ htw (by norm_num) htlt, ht]
    intro i _ hi
    rw [set_bits32_getLsbD, if_neg (by omega)]
    simp
  · rw [fastpath_imm, get_set_bits32_wide _ _ hrw (by norm_num) hrlt, hr]
    intro i hi hi'
    rw [set_bits32_getLsbD, if_neg (by omega), set_bits32_getLsbD, if_neg (by omega)]
    simp

end Fastpath

theorem progress_recv_fastpath {attr : RuntimeAttr} {args : PostArgs} {rhandler : Nat}
    (htw : attr.imm_nbits_tag ≤ 16) (hrw : attr.imm_nbits_rcomp ≤ 15)
    (htag : args.tag ≤ attr.max_imm_tag) (hrh : rhandler ≤ attr.max_imm_rcomp) (bytes : List UInt8) :
    progress_recv ⟨fastpath_imm attr args rhandler, bytes⟩ =
      ⟨IMM_DATA_MSG_EAGER, args.tag, rhandler, bytes.length, bytes⟩ := by
  obtain ⟨hflag, ht, hr⟩ := fastpath_imm_fields attr args rhandler htw hrw htag hrh
  simp [progress_recv, hflag, ht, hr]

theorem progress_recv_slowpath (data : List UInt8) {tag rcomp : Nat} (htag : tag < 2 ^ 64)
    (hrcomp : rcomp < 2 ^ 32) :
    progress_recv ⟨0, data ++ bytesLE TAG_SIZE tag ++ bytesLE RCOMP_SIZE rcomp⟩ =
      ⟨IMM_DATA_MSG_EAGER, tag, rcomp, data.length, data⟩ := by
  have hlen : (data ++ bytesLE TAG_SIZE tag ++ bytesLE RCOMP_SIZE rcomp).length - RCOMP_SIZE =
      (data ++ bytesLE TAG_SIZE tag).length := by simp; omega
  have hlen' : (data ++ bytesLE TAG_SIZE tag).length - TAG_SIZE = data.length := by simp
  have hrc : ((data ++ bytesLE TAG_SIZE tag ++ bytesLE RCOMP_SIZE rcomp).drop
      (data ++ bytesLE TAG_SIZE tag).length).take RCOMP_SIZE = bytesLE RCOMP_SIZE rcomp := by
    rw [List.drop_left, List.take_of_length_le (by simp)]
  have htg : ((data ++ bytesLE TAG_SIZE tag ++ bytesLE RCOMP_SIZE rcomp).drop data.length).take
      TAG_SIZE = bytesLE TAG_SIZE tag := by
    rw [List.append_assoc, List.drop_left, List.take_left' (by simp)]
  have hdata : (data ++ bytesLE TAG_SIZE tag ++ bytesLE RCOMP_SIZE rcomp).take data.length = data := by
    rw [List.append_assoc, List.take_left]
  have hle : RCOMP_SIZE ≤ (data ++ bytesLE TAG_SIZE tag ++ bytesLE RCOMP_SIZE rcomp).length := by
    simp only [List.length_append, bytesLE_length]
    omega
  have hle' : TAG_SIZE ≤ (data ++ bytesLE TAG_SIZE tag).length := by simp
  simp only [progress_recv, get_bits32_zero, ne_eq, not_true_eq_false, if_false,
    IMM_DATA_MSG_EAGER, if_true, size_t_sub_of_le hle, hlen, size_t_sub_of_le hle', hlen', hrc, htg,
    hdata, ofBytesLE_bytesLE]
  simp only [TAG_SIZE, RCOMP_SIZE] at htag hrcomp ⊢
  simp only [show (256 : Nat) ^ 8 = 2 ^ 64 by norm_num, show (256 : Nat) ^ 4 = 2 ^ 32 by norm_num,
    Nat.mod_eq_of_lt htag, Nat.mod_eq_of_lt hrcomp]

/-- The immediate word of a rendezvous message carries its kind in bits 29-30 and no fast-path
flag, so `progress_recv` dispatches on the kind. -/
theorem progress_recv_control {msg_type : BitVec 32} (hlt : msg_type.toNat < 4)
    (hne : msg_type ≠ IMM_DATA_MSG_EAGER) (bytes : List UInt8) :
    progress_recv ⟨set_bits32 0 msg_type 2 29, bytes⟩ = ⟨msg_type, 0, 0, bytes.length, bytes⟩ := by
  have hflag : get_bits32 (set_bits32 0 msg_type 2 29) 1 31 = 0 := by
    rw [get_set_bits32_of_disjoint _ _ (by omega), get_bits32_zero]
  have hkind : get_bits32 (set_bits32 0 msg_type 2 29) 2 29 = msg_type :=
    get_set_bits32 _ _ (by omega) hlt
  simp only [progress_recv, hflag, hkind, hne, ne_eq, not_true_eq_false, if_false]

theorem eager_message_of_not_piggyback (args : PostArgs) (rhandler : Nat) (protocol : Protocol)
    (imm_data : BitVec 32) (data : List UInt8) :
    eager_message args rhandler protocol false imm_data data = ⟨imm_data, data⟩ := by
  cases protocol <;> rfl

section Post

variable {gpu : Bool} {attr : RuntimeAttr} {traits : Traits} {args : PostArgs} {rhandler : Nat}
  {data : List UInt8}

theorem fits_of_not_needs (hout : args.direction = .OUT) (hrh : rhandler ≠ 0)
    (hn : eager_payload_needs_metadata attr args rhandler = false) :
    args.tag ≤ attr.max_imm_tag ∧ rhandler ≤ attr.max_imm_rcomp := by
  simpa [eager_payload_needs_metadata, hout, hrh] using hn

theorem post_comm_of_not_needs (hout : args.direction = .OUT) (hrh : rhandler ≠ 0)
    (hn : eager_payload_needs_metadata attr args rhandler = false)
    (hrdv : (post_comm gpu attr traits args rhandler data).1 ≠ .rdv_zcopy) :
    (post_comm gpu attr traits args rhandler data).2 = ⟨fastpath_imm attr args rhandler, data⟩ := by
  simp only [post_comm] at hrdv ⊢
  have hpig : (set_protocol attr args rhandler gpu traits).2 = false := by
    cases h : (set_protocol attr args rhandler gpu traits).2
    · rfl
    · simp [(set_protocol_piggyback h).2] at hn
  have himm : set_immediate_data attr args rhandler (set_protocol attr args rhandler gpu traits).1 =
      fastpath_imm attr args rhandler := by
    simp [set_immediate_data, hrdv, hout, hrh, fits_of_not_needs hout hrh hn]
  rw [hpig, himm, eager_message_of_not_piggyback]

theorem set_immediate_data_of_needs (hn : eager_payload_needs_metadata attr args rhandler = true)
    {protocol : Protocol} (hp : protocol ≠ .rdv_zcopy) :
    set_immediate_data attr args rhandler protocol = 0 := by
  simp only [eager_payload_needs_metadata, Bool.and_eq_true, beq_iff_eq, bne_iff_ne, ne_eq,
    Bool.or_eq_true, decide_eq_true_eq] at hn
  have hover : ¬ (args.tag ≤ attr.max_imm_tag ∧ rhandler ≤ attr.max_imm_rcomp) := by omega
  simp [set_immediate_data, hp, hover]

theorem post_comm_of_needs (hlocal : args.local_buffer_only = true)
    (hn : eager_payload_needs_metadata attr args rhandler = true)
    (hmr : mr_may_be_device_memory gpu args.mr = true → force_zcopy gpu args.mr = true)
    (hrdv : (post_comm gpu attr traits args rhandler data).1 ≠ .rdv_zcopy) :
    (post_comm gpu attr traits args rhandler data).2 =
      ⟨0, data ++ bytesLE TAG_SIZE args.tag ++ bytesLE RCOMP_SIZE rhandler⟩ := by
  simp only [post_comm] at hrdv ⊢
  rw [set_protocol_of_needs hn hlocal hmr hrdv]
  rw [eager_message, if_pos rfl, set_immediate_data_of_needs hn (by decide)]

/-- An eager send whose metadata does not fit, on memory that may be on the device but is not
forced to zero copy, goes by zero copy with a zero word and the payload alone. -/
theorem post_comm_of_needs_device (hout : args.direction = .OUT)
    (hlocal : args.local_buffer_only = true)
    (hn : eager_payload_needs_metadata attr args rhandler = true)
    (hfz : force_zcopy gpu args.mr = false) (hdev : mr_may_be_device_memory gpu args.mr = true)
    (hle : args.size + TAG_SIZE + RCOMP_SIZE ≤ traits.max_bcopy_size) :
    post_comm gpu attr traits args rhandler data = (.eager_zcopy, ⟨0, data⟩) := by
  have hsize := msg_size_if_eager_of_needs hn
  have hgt : msg_size_if_eager attr args rhandler > args.size := by
    rw [hsize, TAG_SIZE, RCOMP_SIZE]; omega
  have hle' : msg_size_if_eager attr args rhandler ≤ traits.max_bcopy_size := hsize ▸ hle
  have hp : set_protocol attr args rhandler gpu traits = (.eager_zcopy, false) := by
    simp [set_protocol, hout, hlocal, hgt, hfz, hdev, hle', Nat.not_lt.mpr hle']
  simp only [post_comm, hp, eager_message_of_not_piggyback]
  rw [set_immediate_data_of_needs hn (by decide)]

/-- **Eager sends round trip within the default widths.** An outgoing send with a remote handler
that an eager protocol delivers, on memory that is on the host or forced to zero copy, is decoded
by `progress_recv` as an eager message with its tag, its remote handler, its size and its payload,
when the runtime attributes are no wider than the widths the decoder reads with. -/
theorem eager_send_round_trip (htw : attr.imm_nbits_tag ≤ 16)
    (hrw : attr.imm_nbits_rcomp ≤ 15) (hout : args.direction = .OUT)
    (hlocal : args.local_buffer_only = true) (hrh : rhandler ≠ 0) (htag : args.tag < 2 ^ 32)
    (hrh32 : rhandler < 2 ^ 32) (hsize : data.length = args.size)
    (hmr : mr_may_be_device_memory gpu args.mr = true → force_zcopy gpu args.mr = true)
    (hrdv : (post_comm gpu attr traits args rhandler data).1 ≠ .rdv_zcopy) :
    progress_recv (post_comm gpu attr traits args rhandler data).2 =
      ⟨IMM_DATA_MSG_EAGER, args.tag, rhandler, args.size, data⟩ := by
  cases hn : eager_payload_needs_metadata attr args rhandler
  · -- the metadata fits the word: the fast path, with the payload alone
    obtain ⟨htag', hrh'⟩ := fits_of_not_needs hout hrh hn
    rw [post_comm_of_not_needs hout hrh hn hrdv, progress_recv_fastpath htw hrw htag' hrh', hsize]
  · -- the metadata does not fit: a buffer copy carries it after the payload
    rw [post_comm_of_needs hlocal hn hmr hrdv, progress_recv_slowpath data (by omega) hrh32, hsize]

theorem post_comm_of_rdv (hrdv : (post_comm gpu attr traits args rhandler data).1 = .rdv_zcopy) :
    (post_comm gpu attr traits args rhandler data).2 = ⟨set_bits32 0 IMM_DATA_MSG_RTS 2 29, data⟩ := by
  simp only [post_comm] at hrdv ⊢
  rw [hrdv]
  simp [eager_message, set_immediate_data]

/-- **What `post_comm_x` sends, `progress_recv` reads.** Within the default widths, an outgoing
send with a remote handler, on memory that is on the host or forced to zero copy, arrives as an
RTS when it goes by rendezvous, and otherwise as an eager message with its tag, its remote
handler, its size and its payload. -/
theorem post_comm_round_trip (htw : attr.imm_nbits_tag ≤ 16)
    (hrw : attr.imm_nbits_rcomp ≤ 15) (hout : args.direction = .OUT)
    (hlocal : args.local_buffer_only = true) (hrh : rhandler ≠ 0) (htag : args.tag < 2 ^ 32)
    (hrh32 : rhandler < 2 ^ 32) (hsize : data.length = args.size)
    (hmr : mr_may_be_device_memory gpu args.mr = true → force_zcopy gpu args.mr = true) :
    ((post_comm gpu attr traits args rhandler data).1 = .rdv_zcopy →
      (progress_recv (post_comm gpu attr traits args rhandler data).2).msg_type =
        IMM_DATA_MSG_RTS) ∧
    ((post_comm gpu attr traits args rhandler data).1 ≠ .rdv_zcopy →
      progress_recv (post_comm gpu attr traits args rhandler data).2 =
        ⟨IMM_DATA_MSG_EAGER, args.tag, rhandler, args.size, data⟩) := by
  refine ⟨fun hrdv => ?_, eager_send_round_trip htw hrw hout hlocal hrh htag hrh32 hsize hmr⟩
  rw [post_comm_of_rdv hrdv, progress_recv_control (by decide) (by decide) data]

/-- A send of three bytes with a small tag goes by buffer copy on the fast path, one of twenty
bytes does not fit the buffer copy and goes by rendezvous, and one of three bytes whose tag does
not fit the word carries it after the payload. -/
theorem post_comm_round_trip_three_sends :
    (post_comm false RuntimeAttr.default ⟨0, 16⟩ ⟨.OUT, true, 3, 7, .memory, .host⟩ 1
        [1, 2, 3]).1 = .eager_bcopy ∧
      progress_recv (post_comm false RuntimeAttr.default ⟨0, 16⟩
        ⟨.OUT, true, 3, 7, .memory, .host⟩ 1 [1, 2, 3]).2 =
        ⟨IMM_DATA_MSG_EAGER, 7, 1, 3, [1, 2, 3]⟩ ∧
      (post_comm false RuntimeAttr.default ⟨0, 16⟩ ⟨.OUT, true, 20, 7, .memory, .host⟩ 1
        (List.replicate 20 5)).1 = .rdv_zcopy ∧
      (progress_recv (post_comm false RuntimeAttr.default ⟨0, 16⟩
        ⟨.OUT, true, 20, 7, .memory, .host⟩ 1 (List.replicate 20 5)).2).msg_type =
        IMM_DATA_MSG_RTS ∧
      (post_comm false RuntimeAttr.default ⟨0, 16⟩ ⟨.OUT, true, 3, 70000, .memory, .host⟩ 1
        [1, 2, 3]).2 = ⟨0, [1, 2, 3] ++ bytesLE TAG_SIZE 70000 ++ bytesLE RCOMP_SIZE 1⟩ ∧
      progress_recv (post_comm false RuntimeAttr.default ⟨0, 16⟩
        ⟨.OUT, true, 3, 70000, .memory, .host⟩ 1 [1, 2, 3]).2 =
        ⟨IMM_DATA_MSG_EAGER, 70000, 1, 3, [1, 2, 3]⟩ :=
  have hfast : (post_comm false RuntimeAttr.default ⟨0, 16⟩ ⟨.OUT, true, 3, 7, .memory, .host⟩ 1
      [1, 2, 3]).1 = .eager_bcopy := by decide
  have hrdv : (post_comm false RuntimeAttr.default ⟨0, 16⟩
      ⟨.OUT, true, 20, 7, .memory, .host⟩ 1 (List.replicate 20 5)).1 = .rdv_zcopy := by decide
  have hslow : (post_comm false RuntimeAttr.default ⟨0, 16⟩
      ⟨.OUT, true, 3, 70000, .memory, .host⟩ 1 [1, 2, 3]).1 = .eager_bcopy := by decide
  ⟨hfast,
    (post_comm_round_trip (by decide) (by decide) rfl rfl (by decide) (by decide) (by decide) rfl
      (by decide)).2 (by rw [hfast]; decide),
    hrdv,
    (post_comm_round_trip (by decide) (by decide) rfl rfl (by decide) (by decide) (by decide) rfl
      (by decide)).1 hrdv,
    by decide,
    (post_comm_round_trip (by decide) (by decide) rfl rfl (by decide) (by decide) (by decide) rfl
      (by decide)).2 (by rw [hslow]; decide)⟩

/-- With 17 tag bits and 14 remote-handler bits, which `g_runtime_init_x` accepts, a send with
tag `65536` and remote handler `1` is received with tag `0`: the writer puts bit 16 of the tag
where the remote handler then overwrites it, and the reader takes 16 tag bits. -/
theorem wide_tag_attr_misreads_tag (gpu : Bool) (traits : Traits) :
    progress_recv (post_comm gpu ⟨17, 14, by norm_num⟩ traits
      ⟨.OUT, true, 0, 65536, .memory, .host⟩ 1 []).2 = ⟨IMM_DATA_MSG_EAGER, 0, 1, 0, []⟩ := by
  have hn : eager_payload_needs_metadata ⟨17, 14, by norm_num⟩
      ⟨.OUT, true, 0, 65536, .memory, .host⟩ 1 = false := by decide
  have hrdv := @set_protocol_ne_rdv _ _ _ gpu traits
    (by rw [msg_size_if_eager_of_not_needs hn]; exact Nat.zero_le _) (by rfl)
  rw [post_comm_of_not_needs rfl (by decide) hn hrdv]
  decide

theorem force_zcopy_of_not_gpu (mr : Mr) : force_zcopy false mr = false := by
  cases mr <;> rfl

/-- The slow path of `progress_recv` on a zero word: the payload is the message less the twelve
bytes of metadata, in `size_t`. -/
theorem progress_recv_zero (bytes : List UInt8) :
    ∃ tag rcomp, progress_recv ⟨0, bytes⟩ = ⟨IMM_DATA_MSG_EAGER, tag, rcomp,
      size_t_sub bytes.length (TAG_SIZE + RCOMP_SIZE),
      bytes.take (size_t_sub bytes.length (TAG_SIZE + RCOMP_SIZE))⟩ := by
  have hsub := size_t_sub_sub bytes.length RCOMP_SIZE TAG_SIZE (by decide)
  rw [Nat.add_comm RCOMP_SIZE] at hsub
  simp only [progress_recv, get_bits32_zero, ne_eq, not_true_eq_false, if_false,
    IMM_DATA_MSG_EAGER, if_true, hsub]
  exact ⟨_, _, rfl⟩

/-- **An eager zero copy from device or unknown memory loses its metadata.** In a build without
CUDA or HIP, an outgoing send from an `MR_DEVICE` or `MR_UNKNOWN` buffer whose tag or remote
handler does not fit the immediate word, and that would fit a buffer copy with them, goes by zero
copy with a zero word and the payload alone; `progress_recv` then reads the tag and the remote
handler from the payload and delivers it twelve bytes short, or, under twelve bytes, with a size
that wraps to nearly `2 ^ 64`. -/
theorem unknown_mr_misreads_metadata (attr : RuntimeAttr) (traits : Traits) {args : PostArgs}
    {rhandler : Nat} (data : List UInt8) (hout : args.direction = .OUT)
    (hlocal : args.local_buffer_only = true) (hmr : mr_may_be_device_memory false args.mr = true)
    (hn : eager_payload_needs_metadata attr args rhandler = true)
    (hle : args.size + TAG_SIZE + RCOMP_SIZE ≤ traits.max_bcopy_size) :
    post_comm false attr traits args rhandler data = (.eager_zcopy, ⟨0, data⟩) ∧
      ∃ tag rcomp, progress_recv (post_comm false attr traits args rhandler data).2 =
        ⟨IMM_DATA_MSG_EAGER, tag, rcomp, size_t_sub data.length (TAG_SIZE + RCOMP_SIZE),
          data.take (size_t_sub data.length (TAG_SIZE + RCOMP_SIZE))⟩ := by
  have hpost := @post_comm_of_needs_device false attr traits args rhandler data hout hlocal hn
    (force_zcopy_of_not_gpu _) hmr hle
  rw [hpost]
  exact ⟨rfl, progress_recv_zero data⟩

/-- With the default widths, a 16-byte send from an `MR_UNKNOWN` buffer with tag `65536` is
received as a 4-byte message with tag `0` and remote handler `0`, and a 3-byte one as a message
of `2 ^ 64 - 9` bytes. -/
theorem unknown_mr_misreads_metadata_default :
    (post_comm false RuntimeAttr.default ⟨0, 64⟩ ⟨.OUT, true, 16, 65536, .memory, .unknown⟩ 1
        (List.replicate 16 0) = (.eager_zcopy, ⟨0, List.replicate 16 0⟩) ∧
      ∃ tag rcomp, progress_recv (post_comm false RuntimeAttr.default ⟨0, 64⟩
          ⟨.OUT, true, 16, 65536, .memory, .unknown⟩ 1 (List.replicate 16 0)).2 =
        ⟨IMM_DATA_MSG_EAGER, tag, rcomp, size_t_sub 16 (TAG_SIZE + RCOMP_SIZE),
          (List.replicate 16 0).take (size_t_sub 16 (TAG_SIZE + RCOMP_SIZE))⟩) ∧
      progress_recv ⟨0, List.replicate 16 0⟩ = ⟨IMM_DATA_MSG_EAGER, 0, 0, 4, List.replicate 4 0⟩ ∧
      (post_comm false RuntimeAttr.default ⟨0, 64⟩ ⟨.OUT, true, 3, 65536, .memory, .unknown⟩ 1
          [1, 2, 3] = (.eager_zcopy, ⟨0, [1, 2, 3]⟩) ∧
        ∃ tag rcomp, progress_recv (post_comm false RuntimeAttr.default ⟨0, 64⟩
            ⟨.OUT, true, 3, 65536, .memory, .unknown⟩ 1 [1, 2, 3]).2 =
          ⟨IMM_DATA_MSG_EAGER, tag, rcomp, size_t_sub 3 (TAG_SIZE + RCOMP_SIZE),
            [1, 2, 3].take (size_t_sub 3 (TAG_SIZE + RCOMP_SIZE))⟩) ∧
      size_t_sub 3 (TAG_SIZE + RCOMP_SIZE) = 2 ^ 64 - 9 :=
  ⟨unknown_mr_misreads_metadata RuntimeAttr.default ⟨0, 64⟩ (List.replicate 16 0) rfl rfl rfl
      (by decide) (by decide),
    by decide,
    unknown_mr_misreads_metadata RuntimeAttr.default ⟨0, 64⟩ [1, 2, 3] rfl rfl rfl (by decide)
      (by decide),
    by decide⟩

end Post

/-! ### Control messages -/

/-- The FIN of a write-with-immediate rendezvous carries the archive key of the receive; the
archive has at most 16 tag bits. -/
theorem progress_remote_write_fin {tag_bits key : Nat} (hbits : tag_bits ≤ 16)
    (hkey : key < 2 ^ tag_bits) :
    progress_remote_write tag_bits
      (set_bits32 (set_bits32 0 IMM_DATA_MSG_FIN 2 29) (BitVec.ofNat 32 key) tag_bits 0) =
      .fin key := by
  have hk : (BitVec.ofNat 32 key).toNat = key := by
    have : 2 ^ tag_bits ≤ 2 ^ 32 := Nat.pow_le_pow_right (by norm_num) (by omega)
    rw [BitVec.toNat_ofNat, Nat.mod_eq_of_lt (by omega)]
  have hflag : get_bits32 (set_bits32 (set_bits32 0 IMM_DATA_MSG_FIN 2 29)
      (BitVec.ofNat 32 key) tag_bits 0) 1 31 = 0 := by
    rw [get_set_bits32_of_disjoint _ _ (by omega), get_set_bits32_of_disjoint _ _ (by omega),
      get_bits32_zero]
  have hkind : get_bits32 (set_bits32 (set_bits32 0 IMM_DATA_MSG_FIN 2 29)
      (BitVec.ofNat 32 key) tag_bits 0) 2 29 = IMM_DATA_MSG_FIN := by
    rw [get_set_bits32_of_disjoint _ _ (by omega), get_set_bits32 _ _ (by omega) (by decide)]
  have hval : get_bits32 (set_bits32 (set_bits32 0 IMM_DATA_MSG_FIN 2 29)
      (BitVec.ofNat 32 key) tag_bits 0) tag_bits 0 = BitVec.ofNat 32 key :=
    get_set_bits32 _ _ (by omega) (by omega)
  simp only [progress_remote_write, hflag, hkind, hval, hk, ne_eq, not_true_eq_false, if_false,
    if_true]

end Lci.ImmData
