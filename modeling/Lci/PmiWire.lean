import Lci.Bits
import Lci.Codec

/-! The wire format of the TCP PMI rendezvous (src/lct/pmi/pmi_wrapper_tcp.cpp). A message is a
header of five 32-bit words in network order (type, rank through a `uint32_t` cast, aux, key
length, value length) followed by the key and the value bytes, each written only when it is not
empty. `write_all` and `read_all` loop over partial transfers: the writer's side is modelled by
the number of bytes each `send` accepts, the reader's by the pieces in which successive `read`s
return the stream. A `read` that returns 0 (an empty piece, or the end of the pieces) means the
peer closed the connection. The deadline, `poll` and `errno` paths are not modelled: a retried
`EINTR` changes nothing, a timeout is a failure like the others. -/

namespace Lci.PmiWire

open Lci.Bits Lci.Codec

/-- `k_max_wire_string`: the largest key or value a message may carry. -/
def k_max_wire_string : Nat := 4096

/-- `wire_msg_t`. The type is the raw `uint32_t` of `msg_type_t`: `recv_msg` casts any value it
reads into the enumeration. -/
structure wire_msg_t where
  type : UInt32
  rank : Int32
  aux : UInt32
  key : List UInt8
  value : List UInt8
deriving DecidableEq, Repr

/-- The bytes still to come on a connection, in the pieces successive `read`s return. -/
abbrev Pieces := List (List UInt8)

/-! ### Network byte order -/

/-- The four bytes `htonl(x)` puts in memory: the big-endian bytes of `x`. -/
def htonl_bytes (x : UInt32) : List UInt8 := (bytesLE 4 x.toNat).reverse

/-- `ntohl` of the word whose memory holds `bs`. -/
def ntohl_bytes (bs : List UInt8) : UInt32 := UInt32.ofNat (ofBytesLE bs.reverse)

@[simp] theorem htonl_bytes_length (x : UInt32) : (htonl_bytes x).length = 4 := by
  simp [htonl_bytes]

@[simp] theorem ntohl_bytes_htonl_bytes (x : UInt32) : ntohl_bytes (htonl_bytes x) = x := by
  have hx : x.toNat % 256 ^ 4 = x.toNat := Nat.mod_eq_of_lt x.toNat_lt
  rw [ntohl_bytes, htonl_bytes, List.reverse_reverse, ofBytesLE_bytesLE, hx, UInt32.ofNat_toNat]

/-- Word `i` of a header read into `uint32_t header[5]`, through `ntohl`. -/
def header_word (header : List UInt8) (i : Nat) : UInt32 :=
  ntohl_bytes ((header.drop (4 * i)).take 4)

/-- The header `send_msg` fills: type, rank, aux, key length and value length, in network order. -/
def header_bytes (msg : wire_msg_t) : List UInt8 :=
  [msg.type, msg.rank.toUInt32, msg.aux, UInt32.ofNat msg.key.length,
    UInt32.ofNat msg.value.length].flatMap htonl_bytes

/-- The bytes one successful `send_msg` puts on the connection. -/
def wire_bytes (msg : wire_msg_t) : List UInt8 := header_bytes msg ++ msg.key ++ msg.value

theorem take_drop_flatMap_htonl_bytes (ws : List UInt32) (i : Nat) (hi : i < ws.length) :
    ((ws.flatMap htonl_bytes).drop (4 * i)).take 4 = htonl_bytes ws[i] := by
  rw [drop_flatMap_getElem htonl_bytes_length hi, List.take_left' (htonl_bytes_length _)]

@[simp] theorem header_bytes_length (msg : wire_msg_t) : (header_bytes msg).length = 20 := by
  simp [header_bytes]

theorem header_word_flatMap (ws : List UInt32) (i : Nat) (hi : i < ws.length) :
    header_word (ws.flatMap htonl_bytes) i = ws[i] := by
  rw [header_word, take_drop_flatMap_htonl_bytes ws i hi, ntohl_bytes_htonl_bytes]

theorem header_word_header_bytes (msg : wire_msg_t) :
    header_word (header_bytes msg) 0 = msg.type ∧
    header_word (header_bytes msg) 1 = msg.rank.toUInt32 ∧
    header_word (header_bytes msg) 2 = msg.aux ∧
    header_word (header_bytes msg) 3 = UInt32.ofNat msg.key.length ∧
    header_word (header_bytes msg) 4 = UInt32.ofNat msg.value.length := by
  rw [header_bytes]
  exact ⟨header_word_flatMap _ 0 (by simp), header_word_flatMap _ 1 (by simp),
    header_word_flatMap _ 2 (by simp), header_word_flatMap _ 3 (by simp),
    header_word_flatMap _ 4 (by simp)⟩

/-! ### Partial transfers -/

/-- `write_all(fd, data, size, ...)`: `sends` are the byte counts successive `send` calls accept;
once they run out, the rest goes in one call. A `send` that returns 0 fails the loop. The result
and the bytes put on the connection. -/
def write_all : List UInt8 → List Nat → Except String Unit × List UInt8
  | [], _ => (.ok (), [])
  | data, [] => (.ok (), data)
  | data, ret :: sends =>
    if ret = 0 then (.error "socket write returned 0", [])
    else
      let r := write_all (data.drop ret) sends
      (r.1, data.take ret ++ r.2)

/-- `if (!write_all(...)) return false;` followed by the next write. -/
def write_then (w next : Except String Unit × List UInt8) : Except String Unit × List UInt8 :=
  match w with
  | (.error e, out) => (.error e, out)
  | (.ok (), out) => (next.1, out ++ next.2)

/-- `read_all(fd, data, size, ...)`: each `read` takes what it asks of the piece at hand, or the
whole piece when that is shorter; an empty piece, or none left, is a `read` that returned 0. The
bytes read and the pieces left. -/
def read_all : Pieces → Nat → Except String (List UInt8) × Pieces
  | pieces, 0 => (.ok [], pieces)
  | [], _ + 1 => (.error "peer closed TCP rendezvous connection", [])
  | piece :: pieces, size + 1 =>
    if piece = [] then (.error "peer closed TCP rendezvous connection", pieces)
    else if size + 1 < piece.length then
      (.ok (piece.take (size + 1)), piece.drop (size + 1) :: pieces)
    else
      let r := read_all pieces (size + 1 - piece.length)
      (r.1.map (piece ++ ·), r.2)

/-- `if (!read_all(...)) return false;` followed by the rest of the function on what is left. -/
def read_then {α β : Type} (r : Except String α × Pieces) (k : α → Pieces → Except String β × Pieces) :
    Except String β × Pieces :=
  match r with
  | (.error e, pieces) => (.error e, pieces)
  | (.ok a, pieces) => k a pieces

@[simp] theorem write_then_ok (out : List UInt8) (next : Except String Unit × List UInt8) :
    write_then (.ok (), out) next = (next.1, out ++ next.2) := rfl

@[simp] theorem read_then_ok {α β : Type} (a : α) (pieces : Pieces)
    (k : α → Pieces → Except String β × Pieces) : read_then (.ok a, pieces) k = k a pieces := rfl

@[simp] theorem read_then_error {α β : Type} (e : String) (pieces : Pieces)
    (k : α → Pieces → Except String β × Pieces) :
    read_then (.error e, pieces) k = (.error e, pieces) := rfl

/-! ### send_msg and recv_msg -/

/-- What the `send` calls of the three `write_all` calls of one `send_msg` accept. -/
structure sends_t where
  header : List Nat
  key : List Nat
  value : List Nat

/-- `send_msg`. The size check is a `fail_if`, which aborts the process; here it is the error
with the message `fail` prints, with nothing written. -/
def send_msg (msg : wire_msg_t) (sends : sends_t) : Except String Unit × List UInt8 :=
  if k_max_wire_string < msg.key.length ∨ k_max_wire_string < msg.value.length then
    (.error "LCT TCP PMI wire message is too large", [])
  else
    write_then (write_all (header_bytes msg) sends.header) <|
    write_then (if msg.key ≠ [] then write_all msg.key sends.key else (.ok (), [])) <|
    if msg.value ≠ [] then write_all msg.value sends.value else (.ok (), [])

/-- `recv_msg`: the header, the length check, then the key and the value, each read only when
its length is not 0. -/
def recv_msg (pieces : Pieces) : Except String wire_msg_t × Pieces :=
  read_then (read_all pieces 20) fun header pieces =>
    let key_len := header_word header 3
    let value_len := header_word header 4
    if k_max_wire_string < key_len.toNat ∨ k_max_wire_string < value_len.toNat then
      (.error "TCP rendezvous peer sent an oversized message", pieces)
    else
      read_then (if 0 < key_len then read_all pieces key_len.toNat else (.ok [], pieces))
        fun key pieces =>
      read_then (if 0 < value_len then read_all pieces value_len.toNat else (.ok [], pieces))
        fun value pieces =>
      (.ok ⟨header_word header 0, (header_word header 1).toInt32, header_word header 2, key, value⟩,
        pieces)

/-- Messages written one after another on one connection, each `send_msg` with its own sends;
the first failure ends the sequence. -/
def send_msgs : List (wire_msg_t × sends_t) → Except String Unit × List UInt8
  | [] => (.ok (), [])
  | (msg, sends) :: rest => write_then (send_msg msg sends) (send_msgs rest)

/-- `n` successive `recv_msg` calls on one connection; the first failure ends them. -/
def recv_msgs : Nat → Pieces → Except String (List wire_msg_t) × Pieces
  | 0, pieces => (.ok [], pieces)
  | n + 1, pieces =>
    read_then (recv_msg pieces) fun msg pieces =>
      let r := recv_msgs n pieces
      (r.1.map (msg :: ·), r.2)

/-! ### The writer -/

theorem write_all_ok {data : List UInt8} {sends : List Nat} (h : (write_all data sends).1 = .ok ()) :
    (write_all data sends).2 = data := by
  induction sends generalizing data with
  | nil => cases data <;> simp [write_all]
  | cons ret sends ih =>
    cases data with
    | nil => simp [write_all]
    | cons b data =>
      by_cases hret : ret = 0
      · simp [write_all, hret] at h
      · simp only [write_all, hret, if_false] at h ⊢
        rw [ih h, List.take_append_drop]

theorem ok_of_write_then_ok {w next : Except String Unit × List UInt8} (h : (write_then w next).1 = .ok ()) :
    w.1 = .ok () ∧ next.1 = .ok () ∧ (write_then w next).2 = w.2 ++ next.2 := by
  obtain ⟨r, out⟩ := w
  cases r with
  | error e => simp [write_then] at h
  | ok u => exact ⟨rfl, h, rfl⟩

theorem write_all_of_pos {sends : List Nat} (hsends : 0 ∉ sends) (data : List UInt8) :
    write_all data sends = (.ok (), data) := by
  induction sends generalizing data with
  | nil => cases data <;> rfl
  | cons ret sends ih =>
    have hret : ret ≠ 0 := fun h => hsends (h ▸ List.mem_cons_self)
    cases data with
    | nil => rfl
    | cons b data =>
      simp only [write_all, if_neg hret, ih (fun h => hsends (List.mem_cons_of_mem _ h)),
        List.take_append_drop]

theorem write_all_nil (sends : List Nat) : write_all [] sends = (.ok (), []) := by
  cases sends <;> rfl

/-- A `send_msg` that succeeds has put exactly the message's header, key and value on the
connection. -/
theorem send_msg_ok {msg : wire_msg_t} {sends : sends_t} (h : (send_msg msg sends).1 = .ok ()) :
    (send_msg msg sends).2 = wire_bytes msg := by
  have hskip : ∀ (data : List UInt8) (s : List Nat),
      (if data ≠ [] then write_all data s else (.ok (), [])) = write_all data s := by
    intro data s
    by_cases hd : data = [] <;> simp [hd, write_all_nil]
  unfold send_msg at h ⊢
  split at h
  · simp at h
  · rw [if_neg ‹_›]
    rw [hskip, hskip] at h ⊢
    obtain ⟨hheader, hbody, heq⟩ := ok_of_write_then_ok h
    obtain ⟨hkey, hvalue, heq'⟩ := ok_of_write_then_ok hbody
    rw [heq, heq', write_all_ok hheader, write_all_ok hkey, write_all_ok hvalue, wire_bytes,
      List.append_assoc]

/-- A `send_msg` of a message within the size limit whose `send` calls all accept something
succeeds and writes the message's header, key and value. -/
theorem send_msg_of_pos {msg : wire_msg_t} (hkey : msg.key.length ≤ k_max_wire_string)
    (hvalue : msg.value.length ≤ k_max_wire_string) {sends : sends_t} (hheader : 0 ∉ sends.header)
    (hkeys : 0 ∉ sends.key) (hvalues : 0 ∉ sends.value) :
    send_msg msg sends = (.ok (), wire_bytes msg) := by
  have hskip : ∀ (data : List UInt8) (s : List Nat),
      (if data ≠ [] then write_all data s else (.ok (), [])) = write_all data s := by
    intro data s
    by_cases hd : data = [] <;> simp [hd, write_all_nil]
  rw [send_msg, if_neg (by omega), hskip, hskip, write_all_of_pos hheader, write_all_of_pos hkeys,
    write_all_of_pos hvalues]
  simp [wire_bytes]

/-! ### The reader -/

/-- However the stream is cut into pieces, a `read_all` of `n` bytes that are there returns the
first `n` bytes of the stream and leaves the rest, still in non-empty pieces. -/
theorem read_all_flatten {pieces : Pieces} (hne : ∀ piece ∈ pieces, piece ≠ []) {n : Nat}
    (hn : n ≤ pieces.flatten.length) :
    ∃ rest, read_all pieces n = (.ok (pieces.flatten.take n), rest) ∧
      rest.flatten = pieces.flatten.drop n ∧ ∀ piece ∈ rest, piece ≠ [] := by
  induction pieces generalizing n with
  | nil =>
    have hn0 : n = 0 := by simpa using hn
    subst hn0
    exact ⟨[], rfl, rfl, by simp⟩
  | cons piece pieces ih =>
    have hpiece : piece ≠ [] := hne piece List.mem_cons_self
    have hrest : ∀ p ∈ pieces, p ≠ [] := fun p hp => hne p (List.mem_cons_of_mem _ hp)
    cases n with
    | zero => exact ⟨piece :: pieces, rfl, rfl, hne⟩
    | succ n =>
      rw [List.flatten_cons] at hn ⊢
      by_cases hlt : n + 1 < piece.length
      · -- the piece holds more than is asked: what is left of it comes with the next read
        refine ⟨piece.drop (n + 1) :: pieces, ?_, ?_, ?_⟩
        · simp [read_all, hpiece, hlt, List.take_append_of_le_length hlt.le]
        · simp [List.drop_append_of_le_length hlt.le]
        · intro p hp
          rcases List.mem_cons.mp hp with rfl | hp
          · simpa using hlt
          · exact hrest p hp
      · -- the whole piece is read and the loop goes on with the next one
        have hle : piece.length ≤ n + 1 := by omega
        obtain ⟨rest, hread, hflat, hne'⟩ :=
          ih hrest (n := n + 1 - piece.length) (by rw [List.length_append] at hn; omega)
        refine ⟨rest, ?_, ?_, hne'⟩
        · simp [read_all, hpiece, hlt, hread, List.take_append, List.take_of_length_le hle, Except.map]
        · rw [hflat, List.drop_append, List.drop_eq_nil_of_le hle, List.nil_append]

theorem read_all_prefix {pieces : Pieces} (hne : ∀ piece ∈ pieces, piece ≠ [])
    {data rest : List UInt8} (hstream : pieces.flatten = data ++ rest) :
    ∃ pieces', read_all pieces data.length = (.ok data, pieces') ∧ pieces'.flatten = rest ∧
      ∀ piece ∈ pieces', piece ≠ [] := by
  obtain ⟨pieces', hread, hflat, hne'⟩ :=
    read_all_flatten hne (n := data.length) (by rw [hstream, List.length_append]; omega)
  rw [hstream, List.take_left] at hread
  rw [hstream, List.drop_left] at hflat
  exact ⟨pieces', hread, hflat, hne'⟩

theorem read_all_of_pos (pieces : Pieces) (len : UInt32) :
    (if 0 < len then read_all pieces len.toNat else (.ok [], pieces)) = read_all pieces len.toNat := by
  by_cases hlen : 0 < len
  · rw [if_pos hlen]
  · have hzero : len.toNat = 0 := by
      rw [UInt32.lt_iff_toNat_lt] at hlen
      simpa using hlen
    rw [if_neg hlen, hzero, read_all]

theorem toNat_ofNat_of_le {n : Nat} (hn : n ≤ k_max_wire_string) : (UInt32.ofNat n).toNat = n := by
  rw [UInt32.toNat_ofNat', Nat.mod_eq_of_lt (by unfold k_max_wire_string at hn; omega)]

/-- One `recv_msg` on a stream that starts with what `send_msg` wrote returns the message and
consumes exactly its bytes, however the stream is cut into pieces. -/
theorem recv_msg_wire_bytes {msg : wire_msg_t} (hkey : msg.key.length ≤ k_max_wire_string)
    (hvalue : msg.value.length ≤ k_max_wire_string) {pieces : Pieces}
    (hne : ∀ piece ∈ pieces, piece ≠ []) {rest : List UInt8}
    (hstream : pieces.flatten = wire_bytes msg ++ rest) :
    ∃ pieces', recv_msg pieces = (.ok msg, pieces') ∧ pieces'.flatten = rest ∧
      ∀ piece ∈ pieces', piece ≠ [] := by
  rw [wire_bytes, List.append_assoc, List.append_assoc] at hstream
  obtain ⟨p1, hheader, hf1, hne1⟩ := read_all_prefix hne hstream
  obtain ⟨p2, hkeyread, hf2, hne2⟩ := read_all_prefix hne1 hf1
  obtain ⟨p3, hvalueread, hf3, hne3⟩ := read_all_prefix hne2 hf2
  rw [header_bytes_length] at hheader
  obtain ⟨htype, hrank, haux, hkeylen, hvaluelen⟩ := header_word_header_bytes msg
  refine ⟨p3, ?_, hf3, hne3⟩
  simp only [recv_msg, hheader, read_then_ok, read_all_of_pos, hkeylen, hvaluelen,
    toNat_ofNat_of_le hkey, toNat_ofNat_of_le hvalue, hkeyread, hvalueread]
  rw [if_neg (by omega)]
  simp [htype, hrank, haux, Int32.toInt32_toUInt32]

/-- A header that announces a key or a value over the limit is rejected once its 20 bytes are
read: the body is left on the connection. -/
theorem recv_msg_oversized (type rank aux key_len value_len : UInt32)
    (hover : k_max_wire_string < key_len.toNat ∨ k_max_wire_string < value_len.toNat)
    {pieces : Pieces} (hne : ∀ piece ∈ pieces, piece ≠ []) {body : List UInt8}
    (hstream : pieces.flatten = [type, rank, aux, key_len, value_len].flatMap htonl_bytes ++ body) :
    ∃ pieces', recv_msg pieces = (.error "TCP rendezvous peer sent an oversized message", pieces') ∧
      pieces'.flatten = body := by
  obtain ⟨p1, hheader, hf1, -⟩ := read_all_prefix hne hstream
  have hlength : ([type, rank, aux, key_len, value_len].flatMap htonl_bytes).length = 20 := by simp
  rw [hlength] at hheader
  have hkeylen : header_word ([type, rank, aux, key_len, value_len].flatMap htonl_bytes) 3 = key_len :=
    header_word_flatMap _ 3 (by simp)
  have hvaluelen :
      header_word ([type, rank, aux, key_len, value_len].flatMap htonl_bytes) 4 = value_len :=
    header_word_flatMap _ 4 (by simp)
  refine ⟨p1, ?_, hf1⟩
  simp only [recv_msg, hheader, read_then_ok, hkeylen, hvaluelen]
  rw [if_pos hover]

/-! ### Messages in sequence -/

theorem sizes_of_send_msg_ok {msg : wire_msg_t} {sends : sends_t}
    (h : (send_msg msg sends).1 = .ok ()) :
    msg.key.length ≤ k_max_wire_string ∧ msg.value.length ≤ k_max_wire_string := by
  unfold send_msg at h
  split at h
  · simp at h
  · omega

/-- What a successful run of `send_msg` calls wrote is read back by as many `recv_msg` calls, one
message each, however the reader's stream is cut into pieces. -/
theorem recv_msgs_send_msgs (sent : List (wire_msg_t × sends_t))
    (hsent : (send_msgs sent).1 = .ok ()) {pieces : Pieces} (hne : ∀ piece ∈ pieces, piece ≠ [])
    {rest : List UInt8} (hstream : pieces.flatten = (send_msgs sent).2 ++ rest) :
    ∃ pieces', recv_msgs sent.length pieces = (.ok (sent.map Prod.fst), pieces') ∧
      pieces'.flatten = rest := by
  induction sent generalizing pieces with
  | nil => exact ⟨pieces, rfl, by simpa [send_msgs] using hstream⟩
  | cons head sent ih =>
    obtain ⟨msg, sends⟩ := head
    rw [send_msgs] at hsent hstream
    obtain ⟨hsend, hrest, heq⟩ := ok_of_write_then_ok hsent
    obtain ⟨hkey, hvalue⟩ := sizes_of_send_msg_ok hsend
    rw [heq, send_msg_ok hsend, List.append_assoc] at hstream
    obtain ⟨p1, hrecv, hf1, hne1⟩ := recv_msg_wire_bytes hkey hvalue hne hstream
    obtain ⟨p2, hrecvs, hf2⟩ := ih hrest hne1 hf1
    exact ⟨p2, by simp [recv_msgs, hrecv, hrecvs, Except.map], hf2⟩

theorem wire_framing_round_trip :
    (∀ (msg : wire_msg_t) (sends : sends_t), msg.key.length ≤ k_max_wire_string →
      msg.value.length ≤ k_max_wire_string → 0 ∉ sends.header → 0 ∉ sends.key →
      0 ∉ sends.value → send_msg msg sends = (.ok (), wire_bytes msg)) ∧
    (∀ (msg : wire_msg_t) (pieces : Pieces) (rest : List UInt8),
      msg.key.length ≤ k_max_wire_string → msg.value.length ≤ k_max_wire_string →
      (∀ piece ∈ pieces, piece ≠ []) → pieces.flatten = wire_bytes msg ++ rest →
      ∃ pieces', recv_msg pieces = (.ok msg, pieces') ∧ pieces'.flatten = rest) ∧
    (∀ (sent : List (wire_msg_t × sends_t)) (pieces : Pieces) (rest : List UInt8),
      (send_msgs sent).1 = .ok () → (∀ piece ∈ pieces, piece ≠ []) →
      pieces.flatten = (send_msgs sent).2 ++ rest →
      ∃ pieces', recv_msgs sent.length pieces = (.ok (sent.map Prod.fst), pieces') ∧
        pieces'.flatten = rest) ∧
    (∀ (type rank aux key_len value_len : UInt32) (pieces : Pieces) (body : List UInt8),
      (k_max_wire_string < key_len.toNat ∨ k_max_wire_string < value_len.toNat) →
      (∀ piece ∈ pieces, piece ≠ []) →
      pieces.flatten = [type, rank, aux, key_len, value_len].flatMap htonl_bytes ++ body →
      ∃ pieces', recv_msg pieces = (.error "TCP rendezvous peer sent an oversized message", pieces') ∧
        pieces'.flatten = body) := by
  refine ⟨fun msg sends hkey hvalue hh hk hv => send_msg_of_pos hkey hvalue hh hk hv, ?_, ?_, ?_⟩
  · intro msg pieces rest hkey hvalue hne hstream
    obtain ⟨pieces', hrecv, hflat, -⟩ := recv_msg_wire_bytes hkey hvalue hne hstream
    exact ⟨pieces', hrecv, hflat⟩
  · intro sent pieces rest hsent hne hstream
    exact recv_msgs_send_msgs sent hsent hne hstream
  · intro type rank aux key_len value_len pieces body hover hne hstream
    exact recv_msg_oversized type rank aux key_len value_len hover hne hstream

end Lci.PmiWire
