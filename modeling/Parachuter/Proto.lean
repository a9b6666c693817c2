import Parachuter.Basic
/-!
# The wire protocol (`proto/packets.rs`)

A datagram is a 32-byte header and a payload.  `crc` stands for `crc32fast::hash`; the checksum covers the whole
datagram with its own four bytes zeroed.  `decode_encode` is the trip of one packet over the wire, and
`decode_take_encode` the same through a receive buffer of bounded size: a datagram that does not fit is dropped, never
misread.  `encode_decode` is the way back: every byte of a datagram that is accepted is the one `encode` would write.
-/
namespace Parachuter

open Blob (Bytes leBytes leNat)

def MAGIC : Bytes := [0x50, 0x41, 0x52, 0x43]
def PROTOCOL_VERSION : UInt8 := 1
def HEADER_LEN : Nat := 32
def DEFAULT_CHUNK_SIZE : Nat := 16192
def MAX_CHUNK_SIZE : Nat := 65000
def MIN_CHUNK_SIZE : Nat := HEADER_LEN + 32

inductive PacketType
  | data
  | manifest
  | retransmit
  | nameOnly
  | heartbeat
  deriving DecidableEq, Repr

def PacketType.toU8 : PacketType → UInt8
  | .data       => 1
  | .manifest   => 2
  | .retransmit => 3
  | .nameOnly   => 4
  | .heartbeat  => 5

def PacketType.fromU8 (b : UInt8) : Except Error PacketType :=
  if b = 1 then .ok .data
  else if b = 2 then .ok .manifest
  else if b = 3 then .ok .retransmit
  else if b = 4 then .ok .nameOnly
  else if b = 5 then .ok .heartbeat
  else .error (.badPacket "unknown packet type")

def LAST_CHUNK : UInt16 := (1 : UInt16) <<< 0
def RETRANSMIT_HINT : UInt16 := (1 : UInt16) <<< 2

structure PacketFlags where
  bits : UInt16
  deriving DecidableEq, Repr

namespace PacketFlags

def empty : PacketFlags := ⟨0⟩
def last (f : PacketFlags) : PacketFlags := ⟨f.bits ||| LAST_CHUNK⟩
def isLast (f : PacketFlags) : Bool := f.bits &&& LAST_CHUNK != 0

end PacketFlags

structure Packet where
  ptype     : PacketType
  flags     : PacketFlags
  fileId    : FileId
  chunkId   : UInt32
  numChunks : UInt32
  payload   : Bytes
  deriving DecidableEq, Repr

namespace Packet

/-- The header, with the checksum field holding `sum`. -/
def header (p : Packet) (sum : UInt32) : Bytes :=
  MAGIC ++ [PROTOCOL_VERSION, p.ptype.toU8] ++ leBytes 2 p.flags.bits.toNat ++ leBytes 8 p.fileId.toUInt64.toNat
    ++ leBytes 4 p.chunkId.toNat ++ leBytes 4 p.numChunks.toNat ++ leBytes 4 p.payload.length ++ leBytes 4 sum.toNat

def encode (crc : Bytes → UInt32) (p : Packet) : Bytes :=
  p.header (crc (p.header 0 ++ p.payload)) ++ p.payload

/-- The datagram with its checksum field zeroed. -/
def zeroSum (buf : Bytes) : Bytes := buf.take 28 ++ List.replicate 4 0 ++ buf.drop 32

def decode (crc : Bytes → UInt32) (buf : Bytes) : Except Error Packet :=
  if buf.length < HEADER_LEN then .error (.badPacket "short header")
  else if buf.take 4 ≠ MAGIC then .error (.badPacket "bad magic")
  else if buf.getD 4 0 ≠ PROTOCOL_VERSION then .error (.badPacket "unsupported version")
  else
    match PacketType.fromU8 (buf.getD 5 0) with
    | .error e  => .error e
    | .ok ptype =>
      let flags := UInt16.ofNat (leNat ((buf.drop 6).take 2))
      let fileId := (UInt64.ofNat (leNat ((buf.drop 8).take 8))).toInt64
      let chunkId := UInt32.ofNat (leNat ((buf.drop 16).take 4))
      let numChunks := UInt32.ofNat (leNat ((buf.drop 20).take 4))
      let payloadLen := leNat ((buf.drop 24).take 4)
      let expectedCrc := UInt32.ofNat (leNat ((buf.drop 28).take 4))
      if buf.length ≠ HEADER_LEN + payloadLen then .error (.badPacket "payload length mismatch")
      else if crc (zeroSum buf) ≠ expectedCrc then .error (.badPacket "crc mismatch")
      else .ok ⟨ptype, ⟨flags⟩, fileId, chunkId, numChunks, buf.drop HEADER_LEN⟩

end Packet

/-- `crc32fast::hash`: the reflected CRC-32 of polynomial `0xEDB88320`.  The development takes the checksum as a
parameter; this is the one the program uses. -/
def crc32 (buf : Bytes) : UInt32 :=
  let shift (c : UInt32) : UInt32 := if c &&& 1 = 1 then (c >>> 1) ^^^ 0xEDB88320 else c >>> 1
  let byte (c : UInt32) (b : UInt8) : UInt32 :=
    shift (shift (shift (shift (shift (shift (shift (shift (c ^^^ b.toUInt32))))))))
  buf.foldl byte 0xFFFFFFFF ^^^ 0xFFFFFFFF

/-! ## One packet over the wire -/

open Packet

theorem fromU8_toU8 (t : PacketType) : PacketType.fromU8 t.toU8 = .ok t := by cases t <;> rfl

@[simp] theorem length_header (p : Packet) (sum : UInt32) : (p.header sum).length = HEADER_LEN := by
  simp [header, MAGIC, HEADER_LEN]

theorem length_encode (crc : Bytes → UInt32) (p : Packet) : (p.encode crc).length = HEADER_LEN + p.payload.length := by
  simp [encode]

theorem zeroSum_header (p : Packet) (sum : UInt32) (rest : Bytes) :
    zeroSum (p.header sum ++ rest) = p.header 0 ++ rest := by
  simp [zeroSum, header, MAGIC, leBytes]

/-- What `decode` reads at each offset of an encoded packet, `buf` being the datagram or a longer prefix of it. -/
theorem header_fields (p : Packet) (sum : UInt32) (rest : Bytes) :
    let buf := p.header sum ++ rest
    buf.take 4 = MAGIC ∧ buf.getD 4 0 = PROTOCOL_VERSION ∧ buf.getD 5 0 = p.ptype.toU8 ∧
    UInt16.ofNat (leNat ((buf.drop 6).take 2)) = p.flags.bits ∧
    (UInt64.ofNat (leNat ((buf.drop 8).take 8))).toInt64 = p.fileId ∧
    UInt32.ofNat (leNat ((buf.drop 16).take 4)) = p.chunkId ∧
    UInt32.ofNat (leNat ((buf.drop 20).take 4)) = p.numChunks ∧
    leNat ((buf.drop 24).take 4) = p.payload.length % 2 ^ 32 ∧
    UInt32.ofNat (leNat ((buf.drop 28).take 4)) = sum ∧ buf.drop HEADER_LEN = rest := by
  refine ⟨?_, ?_, ?_, ?_, ?_, ?_, ?_, ?_, ?_, ?_⟩
  · simp [header, MAGIC]
  · simp [header, MAGIC]
  · simp [header, MAGIC]
  · simp [header, MAGIC, Blob.leNat_leBytes]
  · simp [header, MAGIC, Blob.leNat_leBytes]
  · simp [header, MAGIC, List.drop_append, Blob.leNat_leBytes]
  · simp [header, MAGIC, List.drop_append, Blob.leNat_leBytes]
  · simp [header, MAGIC, List.drop_append, Blob.leNat_leBytes]
  · simp [header, MAGIC, List.drop_append, Blob.leNat_leBytes]
  · rw [List.drop_append, List.drop_eq_nil_of_le (by simp)]; simp

/-- Decoding a header followed by any bytes: only the length and the checksum are left to decide. -/
theorem decode_header (crc : Bytes → UInt32) (p : Packet) (sum : UInt32) (rest : Bytes) :
    decode crc (p.header sum ++ rest) =
      if rest.length ≠ p.payload.length % 2 ^ 32 then .error (.badPacket "payload length mismatch")
      else if crc (p.header 0 ++ rest) ≠ sum then .error (.badPacket "crc mismatch")
      else .ok { p with payload := rest } := by
  obtain ⟨h1, h2, h3, h4, h5, h6, h7, h8, h9, h10⟩ := header_fields p sum rest
  have hlen : ¬ (p.header sum ++ rest).length < HEADER_LEN := by simp
  have hiff : (p.header sum ++ rest).length ≠ HEADER_LEN + p.payload.length % 2 ^ 32 ↔
      rest.length ≠ p.payload.length % 2 ^ 32 := by
    simp only [List.length_append, length_header]; omega
  unfold decode
  rw [if_neg hlen, if_neg (not_not.2 h1), if_neg (not_not.2 h2), h3, fromU8_toU8]
  simp only [h4, h5, h6, h7, h8, h9, h10, hiff, zeroSum_header]

/-- **A packet survives the wire.** -/
theorem decode_encode (crc : Bytes → UInt32) (p : Packet) (h : p.payload.length < 2 ^ 32) :
    decode crc (p.encode crc) = .ok p := by
  rw [encode, decode_header, if_neg (by rw [Nat.mod_eq_of_lt h]; simp), if_neg (by simp)]

/-- **A datagram longer than the receive buffer is dropped**: its length field no longer matches. -/
theorem decode_take_encode (crc : Bytes → UInt32) (p : Packet) (h : p.payload.length < 2 ^ 32) (n : Nat)
    (hn : HEADER_LEN ≤ n) : decode crc ((p.encode crc).take n) =
      if (p.encode crc).length ≤ n then .ok p else .error (.badPacket "payload length mismatch") := by
  split
  · rename_i hle
    rw [List.take_of_length_le hle, decode_encode crc p h]
  · rename_i hgt
    rw [length_encode] at hgt
    rw [encode, List.take_append, List.take_of_length_le (by simpa using hn), decode_header, if_pos]
    rw [List.length_take, length_header, Nat.mod_eq_of_lt h]
    omega

/-! ## From the datagram back to the packet -/

theorem toU8_fromU8 {b : UInt8} {t : PacketType} (h : PacketType.fromU8 b = .ok t) : t.toU8 = b := by
  unfold PacketType.fromU8 at h
  by_cases h1 : b = 1
  · rw [if_pos h1] at h
    cases h
    exact h1.symm
  rw [if_neg h1] at h
  by_cases h2 : b = 2
  · rw [if_pos h2] at h
    cases h
    exact h2.symm
  rw [if_neg h2] at h
  by_cases h3 : b = 3
  · rw [if_pos h3] at h
    cases h
    exact h3.symm
  rw [if_neg h3] at h
  by_cases h4 : b = 4
  · rw [if_pos h4] at h
    cases h
    exact h4.symm
  rw [if_neg h4] at h
  by_cases h5 : b = 5
  · rw [if_pos h5] at h
    cases h
    exact h5.symm
  rw [if_neg h5] at h
  cases h

/-- A datagram is what stands at its offsets, one after another. -/
theorem eq_fields {buf : Bytes} (h : HEADER_LEN ≤ buf.length) :
    buf = buf.take 4 ++ [buf.getD 4 0, buf.getD 5 0] ++ (buf.drop 6).take 2 ++ (buf.drop 8).take 8 ++ (buf.drop 16).take 4
      ++ (buf.drop 20).take 4 ++ (buf.drop 24).take 4 ++ (buf.drop 28).take 4 ++ buf.drop HEADER_LEN := by
  have hcut : ∀ a n, buf.drop a = (buf.drop a).take n ++ buf.drop (a + n) := by
    intro a n
    rw [← List.drop_drop, List.take_append_drop]
  have htwo : (buf.drop 4).take 2 = [buf.getD 4 0, buf.getD 5 0] := by
    have h5 : 5 < buf.length := Nat.lt_of_lt_of_le (by decide) h
    rw [List.drop_eq_getElem_cons (Nat.lt_of_succ_lt h5), List.drop_eq_getElem_cons h5, List.getD_eq_getElem?_getD,
      List.getD_eq_getElem?_getD, List.getElem?_eq_getElem h5, List.getElem?_eq_getElem (Nat.lt_of_succ_lt h5)]
    rfl
  rw [← htwo]
  simp only [List.append_assoc]
  conv_lhs => rw [← List.take_append_drop 4 buf, hcut 4 2, hcut 6 2, hcut 8 8, hcut 16 4, hcut 20 4, hcut 24 4, hcut 28 4]
  rfl

/-- **What `decode` accepts**: the checks it made and the fields it read. -/
theorem decode_ok {crc : Bytes → UInt32} {buf : Bytes} {p : Packet} (h : decode crc buf = .ok p) :
    HEADER_LEN ≤ buf.length ∧ buf.take 4 = MAGIC ∧ buf.getD 4 0 = PROTOCOL_VERSION ∧ buf.getD 5 0 = p.ptype.toU8 ∧
    buf.length = HEADER_LEN + leNat ((buf.drop 24).take 4) ∧
    crc (zeroSum buf) = UInt32.ofNat (leNat ((buf.drop 28).take 4)) ∧
    p.flags.bits = UInt16.ofNat (leNat ((buf.drop 6).take 2)) ∧
    p.fileId = (UInt64.ofNat (leNat ((buf.drop 8).take 8))).toInt64 ∧
    p.chunkId = UInt32.ofNat (leNat ((buf.drop 16).take 4)) ∧
    p.numChunks = UInt32.ofNat (leNat ((buf.drop 20).take 4)) ∧ p.payload = buf.drop HEADER_LEN := by
  unfold decode at h
  split at h
  · cases h
  rename_i hlen
  split at h
  · cases h
  rename_i hmagic
  split at h
  · cases h
  rename_i hversion
  split at h
  · cases h
  rename_i t htype
  dsimp only at h
  split at h
  · cases h
  rename_i hpay
  split at h
  · cases h
  rename_i hcrc
  cases h
  exact ⟨Nat.not_lt.1 hlen, not_not.1 hmagic, not_not.1 hversion, (toU8_fromU8 htype).symm, not_not.1 hpay, not_not.1 hcrc,
    rfl, rfl, rfl, rfl, rfl⟩

/-- **What is decoded encodes to the datagram it came from.** -/
theorem encode_decode {crc : Bytes → UInt32} {buf : Bytes} {p : Packet} (h : decode crc buf = .ok p) :
    p.encode crc = buf ∧ p.payload.length < 2 ^ 32 := by
  obtain ⟨hle, hmagic, hversion, htype, hpay, hcrc, hflags, hid, hchunk, hnum, hpayload⟩ := decode_ok h
  have hslice : ∀ a n, a + n ≤ HEADER_LEN → ((buf.drop a).take n).length = n := by
    intro a n ha
    rw [List.length_take, List.length_drop]
    omega
  have hlt : ∀ a n, a + n ≤ HEADER_LEN → leNat ((buf.drop a).take n) < 256 ^ n := by
    intro a n ha
    have hb := Blob.leNat_lt ((buf.drop a).take n)
    rw [hslice a n ha] at hb
    exact hb
  -- each field, written back, is the slice it was read from
  have hback : ∀ a n m, a + n ≤ HEADER_LEN → m = 256 ^ n →
      leBytes n (leNat ((buf.drop a).take n) % m) = (buf.drop a).take n := by
    rintro a n m ha rfl
    have hb := Blob.leBytes_leNat ((buf.drop a).take n)
    rw [hslice a n ha] at hb
    rw [Nat.mod_eq_of_lt (hlt a n ha)]
    exact hb
  have hlen : p.payload.length = leNat ((buf.drop 24).take 4) := by
    rw [hpayload, List.length_drop, hpay, Nat.add_sub_cancel_left]
  have hheader : p.header (UInt32.ofNat (leNat ((buf.drop 28).take 4))) ++ p.payload = buf := by
    conv_rhs => rw [eq_fields hle]
    unfold header
    rw [hflags, hid, hchunk, hnum, hlen, ← htype, hpayload, ← hmagic, ← hversion, UInt64.toUInt64_toInt64]
    rw [UInt16.toNat_ofNat', UInt64.toNat_ofNat', UInt32.toNat_ofNat', UInt32.toNat_ofNat', UInt32.toNat_ofNat',
      ← Nat.mod_eq_of_lt (hlt 24 4 (by decide)), hback 6 2 _ (by decide) (by decide), hback 8 8 _ (by decide) (by decide),
      hback 16 4 _ (by decide) (by decide), hback 20 4 _ (by decide) (by decide), hback 24 4 _ (by decide) (by decide),
      hback 28 4 _ (by decide) (by decide)]
  constructor
  · have hzero := zeroSum_header p (UInt32.ofNat (leNat ((buf.drop 28).take 4))) p.payload
    rw [hheader] at hzero
    unfold encode
    rw [← hzero, hcrc]
    exact hheader
  · rw [hlen]
    exact hlt 24 4 (by decide)

/-- **The codec is a bijection** between the packets whose payload length fits its field and the datagrams accepted. -/
theorem packet_codec_exact (crc : Bytes → UInt32) :
    (∀ p : Packet, p.payload.length < 2 ^ 32 → decode crc (p.encode crc) = .ok p) ∧
    (∀ (buf : Bytes) (p : Packet), decode crc buf = .ok p → p.encode crc = buf) ∧
    ∀ buf : Bytes, (∃ p, decode crc buf = .ok p) ↔ ∃ p : Packet, p.payload.length < 2 ^ 32 ∧ p.encode crc = buf := by
  refine ⟨decode_encode crc, fun buf p h => (encode_decode h).1, fun buf => ⟨?_, ?_⟩⟩
  · rintro ⟨p, h⟩
    obtain ⟨heq, hlen⟩ := encode_decode h
    exact ⟨p, hlen, heq⟩
  · rintro ⟨p, hlen, rfl⟩
    exact ⟨p, decode_encode crc p hlen⟩

/-- The last chunk of a file under a negative id. -/
theorem packet_codec_exact_retransmit :
    let p : Packet := ⟨.retransmit, ⟨LAST_CHUNK ||| RETRANSMIT_HINT⟩, -2, 6, 7, [1, 0, 255]⟩
    decode crc32 (p.encode crc32) = .ok p ∧ (p.encode crc32).length = 35 ∧
      ∀ q, decode crc32 (p.encode crc32) = .ok q → q.encode crc32 = p.encode crc32 := by
  intro p
  exact ⟨(packet_codec_exact crc32).1 p (by decide), by decide, (packet_codec_exact crc32).2.1 _⟩

end Parachuter
