import Lci.ImmData

/-! The room a buffer copy has in a packet. A packet of a pool is `packet_size` bytes, the first
cache line of which holds its local context; `get_payload_size` and `get_max_bcopy_size` compute
the room behind it in `size_t`, and `set_protocol` picks a buffer copy only for a message that fits
`get_max_bcopy_size`. What a post then puts in the payload (the data and the trailer that
`set_packet_if_needed` writes, the data a buffer-copy get reads, the `rts_msg_t` of a rendezvous
send) never passes `get_max_bcopy_size` (`payload_bytes_le_max_bcopy`), so it fits the payload
whenever the packet has room for the trailer (`payload_bytes_fit`). `alloc_packet_pool_x` checks
nothing of `packet_size`, and below that size the subtractions wrap: the pool advertises a buffer
copy of nearly `2 ^ 64` bytes, and an eager send copies past the end of its packet
(`small_packet_eager_overflow`). -/

namespace Lci.EagerPacket

open ImmData

/-- `LCI_CACHE_LINE`, with the value the build configures by default. -/
def LCI_CACHE_LINE : UInt64 := 64

/-- `sizeof(rts_msg_t)`: the remote handler, padded to eight bytes, then the send context, the
tag and the size. -/
def RTS_MSG_SIZE : Nat := 32

/-- `packet_pool_attr_t`, with the one field the sizes depend on. -/
structure packet_pool_attr_t where
  packet_size : UInt64

def get_payload_size (attr : packet_pool_attr_t) : UInt64 :=
  attr.packet_size - LCI_CACHE_LINE

def get_max_bcopy_size (attr : packet_pool_attr_t) : UInt64 :=
  get_payload_size attr - UInt64.ofNat TAG_SIZE - UInt64.ofNat RCOMP_SIZE

def validate_and_get_traits (max_inject_size : Nat) (attr : packet_pool_attr_t) : Traits :=
  ⟨max_inject_size, (get_max_bcopy_size attr).toNat⟩

/-- The part of `set_packet_if_needed` that builds the packet of an outgoing buffer copy:
`packet_size_to_send`, the bytes written from the start of the payload, with the tag and the
remote handler after the data when they ride in the payload. `none` is the failed `LCI_Assert`
of that branch. -/
def set_packet_if_needed (traits : Traits) (args : PostArgs) (piggyback : Bool) : Option Nat :=
  if piggyback then
    let packet_size_to_send := args.size + TAG_SIZE + RCOMP_SIZE
    if packet_size_to_send ≤ traits.max_bcopy_size then some packet_size_to_send else none
  else some args.size

/-- The rendezvous branch of `post_network_op`: the bytes of the `rts_msg_t` built in the packet,
none when the network injects it from a copy of its own; `none` is the failed `LCI_Assert`. -/
def post_rts (traits : Traits) : Option Nat :=
  if RTS_MSG_SIZE ≤ traits.max_inject_size then some 0
  else if RTS_MSG_SIZE ≤ traits.max_bcopy_size then some RTS_MSG_SIZE
  else none

/-- The bytes of the packet payload, from its start, that a post writes or reads: an outgoing
buffer copy writes its packet, a rendezvous send its control message, and a buffer-copy get reads
`args.size` bytes into the payload. Receives and zero copies leave the payload alone. -/
def payload_bytes (traits : Traits) (args : PostArgs) (protocol : Protocol) (piggyback : Bool) :
    Option Nat :=
  match args.direction, protocol with
  | .OUT, .eager_bcopy => set_packet_if_needed traits args piggyback
  | .OUT, .rdv_zcopy => post_rts traits
  | .IN, .eager_bcopy => some args.size
  | _, _ => some 0

/-- The protocol that `post_comm_x` picks for a post on a pool, and the bytes it puts in the
payload of the packet. -/
def post_comm_payload (gpu : Bool) (rt : RuntimeAttr) (max_inject_size : Nat)
    (attr : packet_pool_attr_t) (args : PostArgs) (rhandler : Nat) : Protocol × Option Nat :=
  let traits := validate_and_get_traits max_inject_size attr
  let p := set_protocol rt args rhandler gpu traits
  (p.1, payload_bytes traits args p.1 p.2)

/-! ### The two subtractions -/

section Sizes

variable {attr : packet_pool_attr_t}

/-- The room a packet has for a buffer copy and its trailer, past the cache line of its local
context. -/
def TRAILER_ROOM : Nat := LCI_CACHE_LINE.toNat + TAG_SIZE + RCOMP_SIZE

theorem get_payload_size_toNat (h : LCI_CACHE_LINE.toNat ≤ attr.packet_size.toNat) :
    (get_payload_size attr).toNat = attr.packet_size.toNat - LCI_CACHE_LINE.toNat :=
  UInt64.toNat_sub_of_le _ _ (UInt64.le_iff_toNat_le.mpr h)

theorem get_max_bcopy_size_add (h : TRAILER_ROOM ≤ attr.packet_size.toNat) :
    (get_max_bcopy_size attr).toNat + TAG_SIZE + RCOMP_SIZE = (get_payload_size attr).toNat := by
  have hline : LCI_CACHE_LINE.toNat = 64 := rfl
  have hlt := attr.packet_size.toNat_lt
  have hpay : (get_payload_size attr).toNat = attr.packet_size.toNat - LCI_CACHE_LINE.toNat :=
    get_payload_size_toNat (by unfold TRAILER_ROOM at h; omega)
  unfold TRAILER_ROOM TAG_SIZE RCOMP_SIZE at h
  simp only [get_max_bcopy_size, UInt64.toNat_sub, TAG_SIZE, RCOMP_SIZE, UInt64.toNat_ofNat',
    hpay, hline]
  omega

example : (get_max_bcopy_size ⟨8192⟩).toNat = 8116 := by decide

/-- Below the trailer room `get_max_bcopy_size` wraps to nearly `2 ^ 64`, whichever of the two
subtractions wraps. -/
theorem get_max_bcopy_size_wraps (h : attr.packet_size.toNat < TRAILER_ROOM) :
    (get_max_bcopy_size attr).toNat + TRAILER_ROOM = 2 ^ 64 + attr.packet_size.toNat := by
  have hline : LCI_CACHE_LINE.toNat = 64 := rfl
  unfold TRAILER_ROOM TAG_SIZE RCOMP_SIZE at h ⊢
  simp only [get_max_bcopy_size, get_payload_size, UInt64.toNat_sub, TAG_SIZE, RCOMP_SIZE,
    UInt64.toNat_ofNat', hline] at h ⊢
  omega

end Sizes

/-! ### What a post puts in the payload -/

section Payload

variable {rt : RuntimeAttr} {args : PostArgs} {rhandler : Nat} {gpu : Bool} {traits : Traits}

theorem le_msg_size_if_eager : args.size ≤ msg_size_if_eager rt args rhandler := by
  unfold msg_size_if_eager
  split_ifs <;> omega

theorem msg_size_if_eager_of_gt (h : args.size < msg_size_if_eager rt args rhandler) :
    msg_size_if_eager rt args rhandler = args.size + TAG_SIZE + RCOMP_SIZE := by
  unfold msg_size_if_eager at h ⊢
  split_ifs at h ⊢ <;> omega

theorem set_protocol_eager_bcopy {piggyback : Bool}
    (h : set_protocol rt args rhandler gpu traits = (.eager_bcopy, piggyback)) :
    msg_size_if_eager rt args rhandler ≤ traits.max_bcopy_size ∧
      piggyback = decide (args.size < msg_size_if_eager rt args rhandler) := by
  simp only [set_protocol] at h
  split_ifs at h with h₁ h₂ h₃ h₄ <;> simp only [Prod.mk.injEq, reduceCtorEq, false_and] at h
  exact ⟨h₄.2.1, h.2.symm⟩

theorem set_packet_if_needed_of_eager_bcopy {piggyback : Bool}
    (h : set_protocol rt args rhandler gpu traits = (.eager_bcopy, piggyback)) :
    set_packet_if_needed traits args piggyback = some (msg_size_if_eager rt args rhandler) := by
  obtain ⟨hle, rfl⟩ := set_protocol_eager_bcopy h
  by_cases hgt : args.size < msg_size_if_eager rt args rhandler
  · have hmsg := msg_size_if_eager_of_gt hgt
    simp only [set_packet_if_needed, hgt, decide_true, ↓reduceIte, ← hmsg, hle]
  · have hmsg : msg_size_if_eager rt args rhandler = args.size :=
      Nat.le_antisymm (Nat.not_lt.mp hgt) le_msg_size_if_eager
    simp only [set_packet_if_needed, hmsg, lt_self_iff_false, decide_false, Bool.false_eq_true,
      ↓reduceIte]

theorem post_rts_le {n : Nat} (h : post_rts traits = some n) : n ≤ traits.max_bcopy_size := by
  unfold post_rts at h
  split_ifs at h with h₁ h₂
  · cases h
    exact Nat.zero_le _
  · cases h
    exact h₂

/-- Whatever the pool's packet size, a post never puts more in the payload than
`max_bcopy_size`: the bound of every protocol is the one `set_protocol` tested. -/
theorem payload_bytes_le_max_bcopy {n : Nat}
    (h : payload_bytes traits args (set_protocol rt args rhandler gpu traits).1
      (set_protocol rt args rhandler gpu traits).2 = some n) :
    n ≤ traits.max_bcopy_size := by
  rcases hp : set_protocol rt args rhandler gpu traits with ⟨p, piggyback⟩
  rw [hp] at h
  cases hdir : args.direction <;> cases p <;> simp only [payload_bytes, hdir] at h
  case OUT.eager_bcopy =>
    rw [set_packet_if_needed_of_eager_bcopy hp] at h
    cases h
    exact (set_protocol_eager_bcopy hp).1
  case OUT.rdv_zcopy => exact post_rts_le h
  case IN.eager_bcopy =>
    cases h
    exact le_msg_size_if_eager.trans (set_protocol_eager_bcopy hp).1
  all_goals
    cases h
    exact Nat.zero_le _

end Payload

/-- For a pool whose packets have room for the trailer, everything a post puts in a packet stays
inside its payload, and `get_max_bcopy_size` does not wrap. -/
theorem payload_bytes_fit (gpu : Bool) (rt : RuntimeAttr) (max_inject_size : Nat)
    {attr : packet_pool_attr_t} (hroom : TRAILER_ROOM ≤ attr.packet_size.toNat) (args : PostArgs)
    (rhandler : Nat) {n : Nat} (h : (post_comm_payload gpu rt max_inject_size attr args rhandler).2 = some n) :
    n + TAG_SIZE + RCOMP_SIZE ≤ (get_payload_size attr).toNat ∧
      (get_max_bcopy_size attr).toNat + TAG_SIZE + RCOMP_SIZE = (get_payload_size attr).toNat := by
  have hsize := get_max_bcopy_size_add hroom
  have hle := payload_bytes_le_max_bcopy h
  simp only [validate_and_get_traits] at hle
  exact ⟨by omega, hsize⟩

/-- A send of 1000 bytes whose tag does not fit the immediate data carries the tag and the remote
handler behind its data: 1012 bytes of a payload of 8128. -/
theorem payload_bytes_fit_piggyback :
    TRAILER_ROOM ≤ (⟨8192⟩ : packet_pool_attr_t).packet_size.toNat ∧
      post_comm_payload false RuntimeAttr.default 64 ⟨8192⟩
          ⟨.OUT, true, 1000, 70000, .memory, .host⟩ 1 = (.eager_bcopy, some 1012) ∧
      1012 + TAG_SIZE + RCOMP_SIZE ≤ (get_payload_size ⟨8192⟩).toNat ∧
      (get_max_bcopy_size ⟨8192⟩).toNat + TAG_SIZE + RCOMP_SIZE =
        (get_payload_size ⟨8192⟩).toNat :=
  have hp : post_comm_payload false RuntimeAttr.default 64 ⟨8192⟩
      ⟨.OUT, true, 1000, 70000, .memory, .host⟩ 1 = (.eager_bcopy, some 1012) := by decide
  ⟨by decide, hp, payload_bytes_fit false RuntimeAttr.default 64 (by decide) _ 1 (by rw [hp])⟩

/-- A pool of packets too small for the trailer advertises a buffer copy of nearly `2 ^ 64`
bytes, so an eager send from host memory that the network cannot inject goes by buffer copy for
any size up to that, and `set_packet_if_needed` copies all of it into the payload of one packet,
however long the message is against the packet. -/
theorem small_packet_eager_overflow (gpu : Bool) (rt : RuntimeAttr) (max_inject_size : Nat)
    {attr : packet_pool_attr_t} (hsmall : attr.packet_size.toNat < TRAILER_ROOM)
    {args : PostArgs} {rhandler : Nat} (hout : args.direction = .OUT)
    (hlocal : args.local_buffer_only = true) (hmr : args.mr = .host)
    (hmeta : eager_payload_needs_metadata rt args rhandler = false)
    (hinject : max_inject_size < args.size)
    (hsize : args.size + TRAILER_ROOM ≤ 2 ^ 64 + attr.packet_size.toNat) :
    (get_max_bcopy_size attr).toNat + TRAILER_ROOM = 2 ^ 64 + attr.packet_size.toNat ∧
      post_comm_payload gpu rt max_inject_size attr args rhandler = (.eager_bcopy, some args.size) := by
  have hwrap := get_max_bcopy_size_wraps hsmall
  have hmsg := msg_size_if_eager_of_not_needs hmeta
  refine ⟨hwrap, ?_⟩
  have hfit : args.size ≤ (get_max_bcopy_size attr).toNat := by omega
  have hprot : set_protocol rt args rhandler gpu (validate_and_get_traits max_inject_size attr) =
      (.eager_bcopy, false) := by
    simp [set_protocol, validate_and_get_traits, hmsg, hout, hlocal, hmr, force_zcopy,
      mr_may_be_device_memory, Mr.is_empty, Nat.not_lt.mpr hfit, Nat.not_le.mpr hinject, hfit]
  simp only [post_comm_payload, hprot, payload_bytes, hout, set_packet_if_needed,
    Bool.false_eq_true, ↓reduceIte]

/-- A pool of 64-byte packets, the size of the local context alone: a send of 1024 bytes from
host memory is copied into one packet. -/
theorem small_packet_eager_overflow_at_cache_line :
    (⟨64⟩ : packet_pool_attr_t).packet_size.toNat < 1024 ∧
      (get_max_bcopy_size ⟨64⟩).toNat + TRAILER_ROOM = 2 ^ 64 + 64 ∧
      post_comm_payload false RuntimeAttr.default 64 ⟨64⟩ ⟨.OUT, true, 1024, 0, .memory, .host⟩ 0 =
        (.eager_bcopy, some 1024) :=
  ⟨by decide, small_packet_eager_overflow false RuntimeAttr.default 64 (by decide) rfl rfl rfl rfl
    (by decide) (by decide)⟩

end Lci.EagerPacket
