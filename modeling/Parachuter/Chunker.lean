import Parachuter.Proto
import Parachuter.Lib.Utf8
/-!
# Cutting a file into packets (`chunker.rs`)

`Chunker` is the source's, with the open file's contents in place of its handle.  A `Source` is a file on the payload
together with the chunk size it is sent at; `Sends S` is the set of packets its chunker can produce, and the lemmas of
the last section say what each of them carries, in terms of the file alone.
-/
namespace Parachuter

open Blob (Bytes)

/-- `chunks_for_size`: a ceiling division in `u64`, truncated to `u32`. -/
def chunksForSize (fileSize payloadSize : Nat) : UInt32 :=
  if fileSize = 0 then 1 else UInt32.ofNat ((fileSize + payloadSize - 1) % 2 ^ 64 / payloadSize)

/-- The quotient of a file whose chunks can be counted in 32 bits overflows nowhere. -/
theorem toNat_chunksForSize {size p : Nat} (hp : 0 < p) (hp' : p ≤ 64968) (h : size ≤ (2 ^ 32 - 1) * p) :
    (chunksForSize size p).toNat = if size = 0 then 1 else (size + p - 1) / p := by
  unfold chunksForSize
  split
  · rfl
  · have hcount : (size + p - 1) / p ≤ 2 ^ 32 - 1 :=
      Nat.le_of_lt_succ (Nat.div_lt_of_lt_mul (by rw [Nat.mul_comm, Nat.succ_mul]; omega))
    rw [Nat.mod_eq_of_lt (by omega), UInt32.toNat_ofNat_of_lt' (Nat.lt_of_le_of_lt hcount (by decide))]

/-- **The count of such a file**: all but the last chunk lie within the file, and the last one reaches its end. -/
theorem chunksForSize_spec {size p : Nat} (hp : 0 < p) (hp' : p ≤ 64968) (h : size ≤ (2 ^ 32 - 1) * p) :
    0 < (chunksForSize size p).toNat ∧ ((chunksForSize size p).toNat - 1) * p ≤ size ∧
    size ≤ (chunksForSize size p).toNat * p := by
  rw [toNat_chunksForSize hp hp' h]
  split
  · rename_i h0
    rw [h0]
    exact ⟨Nat.one_pos, by simp, Nat.zero_le _⟩
  · have hlow := Nat.div_mul_le_self (size + p - 1) p
    have hhigh := Nat.lt_div_mul_add (a := size + p - 1) hp
    refine ⟨Nat.div_pos (by omega) hp, ?_, by omega⟩
    rw [Nat.sub_mul, Nat.one_mul]
    omega

structure Chunker where
  file        : Bytes
  fileId      : FileId
  chunkSize   : Nat
  payloadSize : Nat
  numChunks   : UInt32
  deriving DecidableEq, Repr

namespace Chunker

def fileSize (c : Chunker) : Nat := c.file.length

/-- `Chunker::open`; `files` looks a path up on the payload. -/
def «open» (files : List Char → Option Bytes) (path : List Char) (fileId : FileId) (chunkSize : Nat) :
    Except Error Chunker :=
  if ¬ (MIN_CHUNK_SIZE ≤ chunkSize ∧ chunkSize ≤ MAX_CHUNK_SIZE) then .error (.badChunkSize chunkSize)
  else
    match files path with
    | none      => .error (.notFound (.text path))
    | some file =>
      let payloadSize := chunkSize - HEADER_LEN
      .ok ⟨file, fileId, chunkSize, payloadSize, chunksForSize file.length payloadSize⟩

def dataPacket (c : Chunker) (chunkId : UInt32) : Except Error Packet :=
  if c.numChunks ≤ chunkId then .error (.outOfRange chunkId c.numChunks)
  else
    let offset := chunkId.toNat * c.payloadSize
    let remaining := c.fileSize - offset
    let toRead := min remaining c.payloadSize
    let buf := (c.file.drop offset).take toRead
    let flags := if chunkId = c.numChunks - 1 then PacketFlags.empty.last else PacketFlags.empty
    .ok ⟨.data, flags, c.fileId, chunkId, c.numChunks, buf⟩

def retransmitPacket (c : Chunker) (chunkId : UInt32) : Except Error Packet :=
  match c.dataPacket chunkId with
  | .error e => .error e
  | .ok p    => .ok { p with ptype := .retransmit, flags := ⟨p.flags.bits ||| RETRANSMIT_HINT⟩ }

def manifestPacket (c : Chunker) (path : List Char) : Packet :=
  ⟨.manifest, PacketFlags.empty, c.fileId, 0, c.numChunks, Utf8.encode path⟩

theorem open_ok {files : List Char → Option Bytes} {path : List Char} {fileId : FileId} {chunkSize : Nat} {c : Chunker}
    (h : Chunker.open files path fileId chunkSize = .ok c) : ∃ file, files path = some file ∧
      c = ⟨file, fileId, chunkSize, chunkSize - HEADER_LEN, chunksForSize file.length (chunkSize - HEADER_LEN)⟩ := by
  unfold Chunker.open at h
  split at h
  · cases h
  · split at h
    · cases h
    · rename_i file hfile
      cases h
      exact ⟨file, hfile, rfl⟩

theorem open_some {files : List Char → Option Bytes} {path : List Char} {chunkSize : Nat} {file : Bytes}
    (hok : MIN_CHUNK_SIZE ≤ chunkSize ∧ chunkSize ≤ MAX_CHUNK_SIZE) (h : files path = some file) (fileId : FileId) :
    Chunker.open files path fileId chunkSize =
      .ok ⟨file, fileId, chunkSize, chunkSize - HEADER_LEN, chunksForSize file.length (chunkSize - HEADER_LEN)⟩ := by
  unfold Chunker.open
  rw [if_neg (not_not.2 hok), h]

theorem open_none {files : List Char → Option Bytes} {path : List Char} {chunkSize : Nat}
    (hok : MIN_CHUNK_SIZE ≤ chunkSize ∧ chunkSize ≤ MAX_CHUNK_SIZE) (h : files path = none) (fileId : FileId) :
    Chunker.open files path fileId chunkSize = .error (.notFound (.text path)) := by
  unfold Chunker.open
  rw [if_neg (not_not.2 hok), h]

theorem open_error {files : List Char → Option Bytes} {path : List Char} {fileId : FileId} {chunkSize : Nat} {e : Error}
    (h : Chunker.open files path fileId chunkSize = .error e) : e = .badChunkSize chunkSize ∨ e = .notFound (.text path) := by
  unfold Chunker.open at h
  split at h
  · cases h
    exact .inl rfl
  · split at h
    · cases h
      exact .inr rfl
    · cases h

theorem dataPacket_of_lt {c : Chunker} {i : UInt32} (h : i < c.numChunks) : ∃ p, c.dataPacket i = .ok p := by
  unfold dataPacket
  rw [if_neg (UInt32.not_le.2 h)]
  exact ⟨_, rfl⟩

theorem dataPacket_of_not_lt {c : Chunker} {i : UInt32} (h : ¬ i < c.numChunks) :
    c.dataPacket i = .error (.outOfRange i c.numChunks) := by
  unfold dataPacket
  rw [if_pos (UInt32.not_lt.1 h)]

theorem retransmitPacket_of_not_lt {c : Chunker} {i : UInt32} (h : ¬ i < c.numChunks) :
    c.retransmitPacket i = .error (.outOfRange i c.numChunks) := by
  unfold retransmitPacket
  rw [dataPacket_of_not_lt h]

theorem retransmitPacket_of_lt {c : Chunker} {i : UInt32} (h : i < c.numChunks) : ∃ p, c.retransmitPacket i = .ok p := by
  obtain ⟨p, hp⟩ := dataPacket_of_lt h
  unfold retransmitPacket
  rw [hp]
  exact ⟨_, rfl⟩

/-- What a packet of chunk `i` carries, whatever the file. -/
structure Carries (c : Chunker) (i : UInt32) (p : Packet) : Prop where
  isChunk   : p.ptype = .data ∨ p.ptype = .retransmit
  fileId    : p.fileId = c.fileId
  chunkId   : p.chunkId = i
  numChunks : p.numChunks = c.numChunks
  isLast    : p.flags.isLast = decide (i = c.numChunks - 1)
  length    : p.payload.length = min (c.fileSize - i.toNat * c.payloadSize) c.payloadSize

theorem Carries.payload {c : Chunker} {i : UInt32} {p : Packet} (h : c.Carries i p) : p.payload.length ≤ c.payloadSize := by
  rw [h.length]
  exact Nat.min_le_right _ _

theorem carries_dataPacket {c : Chunker} {i : UInt32} {p : Packet} (h : c.dataPacket i = .ok p) : c.Carries i p := by
  unfold dataPacket at h
  split at h
  · cases h
  cases h
  refine ⟨.inl rfl, rfl, rfl, rfl, ?_, ?_⟩
  · by_cases hl : i = c.numChunks - 1 <;> simp [hl] <;> rfl
  · dsimp only
    rw [List.length_take, List.length_drop]
    exact Nat.min_eq_left (Nat.min_le_left _ _)

theorem carries_retransmitPacket {c : Chunker} {i : UInt32} {p : Packet} (h : c.retransmitPacket i = .ok p) :
    c.Carries i p := by
  unfold retransmitPacket at h
  split at h
  · cases h
  rename_i q hq
  have hc := carries_dataPacket hq
  cases h
  refine ⟨.inr rfl, hc.fileId, hc.chunkId, hc.numChunks, ?_, hc.length⟩
  have hbits : (q.flags.bits ||| RETRANSMIT_HINT) &&& LAST_CHUNK = q.flags.bits &&& LAST_CHUNK := by
    apply UInt16.toBitVec_inj.1
    show (q.flags.bits.toBitVec ||| 4#16) &&& 1#16 = q.flags.bits.toBitVec &&& 1#16
    rw [BitVec.and_or_distrib_right]
    exact BitVec.or_zero
  rw [← hc.isLast]
  unfold PacketFlags.isLast
  rw [hbits]

end Chunker

/-! ## A file and the chunk size it is sent at -/

/-- A file on the payload under its ledger id, sent at one valid chunk size.  Its name is one a regular file can have:
it names something below the root, and its length fits a `u32` many times over.  Its chunk count is one the sidecar's bitmap can
hold. -/
structure Source where
  fileId    : FileId
  name      : List Char
  bytes     : Bytes
  chunkSize : Nat
  sizeOk    : MIN_CHUNK_SIZE ≤ chunkSize ∧ chunkSize ≤ MAX_CHUNK_SIZE
  nameOk    : normalComponents name ≠ []
  nameFits  : (Utf8.encode name).length < 2 ^ 32
  countFits : (bytes.length + (chunkSize - HEADER_LEN) - 1) / (chunkSize - HEADER_LEN) ≤ 2 ^ 32 - 8

namespace Source

variable (S : Source)

theorem nameNe : S.name ≠ [] := by
  intro h
  refine S.nameOk ?_
  rw [h]
  decide

def payloadSize : Nat := S.chunkSize - HEADER_LEN

/-- What `Chunker::open` returns for the file. -/
def chunker : Chunker :=
  ⟨S.bytes, S.fileId, S.chunkSize, S.payloadSize, chunksForSize S.bytes.length S.payloadSize⟩

/-- The packets of a file. -/
inductive Sends : Packet → Prop
  | manifest : Sends (S.chunker.manifestPacket S.name)
  | data (i : UInt32) (p : Packet) : S.chunker.dataPacket i = .ok p → Sends p
  | retransmit (i : UInt32) (p : Packet) : S.chunker.retransmitPacket i = .ok p → Sends p

/-- The number of chunks, as a number. -/
def count : Nat := S.chunker.numChunks.toNat

/-- Chunk `i` of the file. -/
def piece (i : Nat) : Bytes := (S.bytes.drop (i * S.payloadSize)).take S.payloadSize

/-- The payload bytes per chunk as the ground comes to know them: a lone chunk's own length, else the full payload. -/
def stride : Nat := if S.count = 1 then S.bytes.length else S.payloadSize

theorem open_eq (files : List Char → Option Bytes) (h : files S.name = some S.bytes) :
    Chunker.open files S.name S.fileId S.chunkSize = .ok S.chunker := Chunker.open_some S.sizeOk h S.fileId

theorem payloadSize_pos : 0 < S.payloadSize := by
  have := S.sizeOk
  simp only [payloadSize, MIN_CHUNK_SIZE, HEADER_LEN] at *
  omega

theorem payloadSize_le : S.payloadSize ≤ 64968 := by
  have := S.sizeOk
  simp only [payloadSize, MAX_CHUNK_SIZE, HEADER_LEN] at *
  omega

theorem length_fits : S.bytes.length ≤ (2 ^ 32 - 1) * S.payloadSize := by
  have hceil := Nat.lt_div_mul_add (a := S.bytes.length + S.payloadSize - 1) S.payloadSize_pos
  have hcount := Nat.mul_le_mul_right S.payloadSize S.countFits
  have hpos := S.payloadSize_pos
  rw [payloadSize] at *
  omega

theorem count_eq : S.count = if S.bytes.length = 0 then 1 else (S.bytes.length + S.payloadSize - 1) / S.payloadSize :=
  toNat_chunksForSize S.payloadSize_pos S.payloadSize_le S.length_fits

theorem count_pos : 0 < S.count := (chunksForSize_spec S.payloadSize_pos S.payloadSize_le S.length_fits).1

theorem count_le : S.count ≤ 2 ^ 32 - 8 := by
  rw [count_eq]
  split
  · omega
  · exact S.countFits

/-- **The chunks cover the file**: all but the last are full, and the last ends it. -/
theorem count_bounds : (S.count - 1) * S.payloadSize ≤ S.bytes.length ∧ S.bytes.length ≤ S.count * S.payloadSize :=
  (chunksForSize_spec S.payloadSize_pos S.payloadSize_le S.length_fits).2

theorem length_piece (i : Nat) : (S.piece i).length = min S.payloadSize (S.bytes.length - i * S.payloadSize) := by
  rw [piece, List.length_take, List.length_drop]

theorem mul_payloadSize_le {i : Nat} (hi : i < S.count) : i * S.payloadSize ≤ (S.count - 1) * S.payloadSize :=
  Nat.mul_le_mul_right _ (by omega)

theorem length_piece_of_lt {i : Nat} (hi : i + 1 < S.count) : (S.piece i).length = S.payloadSize := by
  have h1 := S.count_bounds.1
  have h2 : (i + 1) * S.payloadSize ≤ (S.count - 1) * S.payloadSize := Nat.mul_le_mul_right _ (by omega)
  rw [Nat.add_mul, Nat.one_mul] at h2
  rw [length_piece]
  omega

theorem end_of_last : (S.count - 1) * S.payloadSize + (S.piece (S.count - 1)).length = S.bytes.length := by
  obtain ⟨h1, h2⟩ := S.count_bounds
  have h3 : S.count * S.payloadSize = (S.count - 1) * S.payloadSize + S.payloadSize := by
    have := S.count_pos
    rw [Nat.sub_mul, Nat.one_mul, Nat.sub_add_cancel (Nat.le_mul_of_pos_left _ this)]
  rw [length_piece]
  omega

theorem end_le {i : Nat} (hi : i < S.count) : i * S.payloadSize + (S.piece i).length ≤ S.bytes.length := by
  have h1 := S.mul_payloadSize_le hi
  have h2 := S.count_bounds.1
  rw [length_piece]
  omega

theorem mul_stride {i : Nat} (hi : i < S.count) : i * S.stride = i * S.payloadSize := by
  unfold stride
  split
  · have : i = 0 := by omega
    subst this; simp
  · rfl

theorem stride_le : S.stride ≤ 64968 := by
  have h := S.payloadSize_le
  unfold stride
  split
  · have h2 := S.count_bounds.2
    rename_i h1
    rw [h1, Nat.one_mul] at h2
    omega
  · exact h

/-- The payload of a chunk that fixes the geometry is the stride: any chunk of a lone-chunk file, any but the last
otherwise. -/
theorem length_piece_eq_stride {i : Nat} (hi : i < S.count) (h : S.count = 1 ∨ i ≠ S.count - 1) :
    (S.piece i).length = S.stride := by
  unfold stride
  split
  · rename_i h1
    have h0 : i = 0 := by omega
    have := S.end_of_last
    simp only [h1, Nat.sub_self, Nat.zero_mul, Nat.zero_add] at this
    rw [h0]; exact this
  · exact S.length_piece_of_lt (by omega)

theorem stride_pos (h : S.count ≠ 1) : 0 < S.stride := by
  unfold stride; rw [if_neg h]; exact S.payloadSize_pos

/-! ## What the packets of a file carry -/

/-- The packet of chunk `i` as both `data_packet` and `retransmit_packet` fill it, up to type and hint. -/
structure IsChunk (i : Nat) (p : Packet) : Prop where
  lt        : i < S.count
  isChunk   : p.ptype = .data ∨ p.ptype = .retransmit
  fileId    : p.fileId = S.fileId
  chunkId   : p.chunkId.toNat = i
  numChunks : p.numChunks.toNat = S.count
  isLast    : p.flags.isLast = decide (i = S.count - 1)
  payload   : p.payload = S.piece i

theorem dataPacket_eq (i : UInt32) (h : i.toNat < S.count) : S.chunker.dataPacket i =
    .ok ⟨.data, if i.toNat = S.count - 1 then PacketFlags.empty.last else PacketFlags.empty, S.fileId, i,
      S.chunker.numChunks, S.piece i.toNat⟩ := by
  have hle : ¬ S.chunker.numChunks ≤ i := by rw [UInt32.le_iff_toNat_le]; exact Nat.not_le.2 h
  have hlast : i = S.chunker.numChunks - 1 ↔ i.toNat = S.count - 1 := by
    have hpos : 0 < S.count := S.count_pos
    rw [← UInt32.toNat_inj, UInt32.toNat_sub_of_le _ _ (by
      rw [UInt32.le_iff_toNat_le]; exact hpos)]
    rfl
  have hread : ((S.bytes.drop (i.toNat * S.payloadSize)).take
      (min (S.bytes.length - i.toNat * S.payloadSize) S.payloadSize)) = S.piece i.toNat := by
    rw [piece, Nat.min_comm, ← List.take_take]
    congr 1
    exact List.take_of_length_le (by rw [List.length_drop])
  unfold Chunker.dataPacket
  rw [if_neg hle]
  simp only [hlast, Chunker.fileSize]
  rw [← hread]
  rfl

theorem dataPacket_ok {i : UInt32} {p : Packet} (h : S.chunker.dataPacket i = .ok p) : i.toNat < S.count := by
  unfold Chunker.dataPacket at h
  split at h
  · cases h
  · rename_i hle
    rw [UInt32.le_iff_toNat_le] at hle
    exact Nat.not_le.1 hle

theorem isChunk_dataPacket {i : UInt32} {p : Packet} (h : S.chunker.dataPacket i = .ok p) :
    p.ptype = .data ∧ S.IsChunk i.toNat p := by
  have hi := S.dataPacket_ok h
  rw [S.dataPacket_eq i hi] at h
  cases h
  refine ⟨rfl, hi, .inl rfl, rfl, rfl, rfl, ?_, rfl⟩
  by_cases hl : i.toNat = S.count - 1 <;> simp [hl] <;> rfl

theorem isChunk_retransmitPacket {i : UInt32} {p : Packet} (h : S.chunker.retransmitPacket i = .ok p) :
    p.ptype = .retransmit ∧ S.IsChunk i.toNat p := by
  unfold Chunker.retransmitPacket at h
  split at h
  · cases h
  · rename_i q hq
    have hi := S.dataPacket_ok hq
    rw [S.dataPacket_eq i hi] at hq
    cases hq
    cases h
    refine ⟨rfl, hi, .inr rfl, rfl, rfl, rfl, ?_, rfl⟩
    by_cases hl : i.toNat = S.count - 1 <;> simp [hl] <;> rfl

/-- **Every packet of a file** is its manifest or one of its chunks. -/
theorem Sends.cases {S : Source} {p : Packet} (h : S.Sends p) :
    p = S.chunker.manifestPacket S.name ∨ ∃ i, S.IsChunk i p := by
  cases h with
  | manifest => exact .inl rfl
  | data i p h => exact .inr ⟨_, (S.isChunk_dataPacket h).2⟩
  | retransmit i p h => exact .inr ⟨_, (S.isChunk_retransmitPacket h).2⟩

theorem Sends.fileId {S : Source} {p : Packet} (h : S.Sends p) : p.fileId = S.fileId := by
  rcases h.cases with rfl | ⟨i, hi⟩
  · rfl
  · exact hi.fileId

theorem Sends.ptype_ne {S : Source} {p : Packet} (h : S.Sends p) : p.ptype ≠ .heartbeat := by
  rcases h.cases with rfl | ⟨i, hi⟩
  · exact fun h => by cases h
  · rcases hi.isChunk with ht | ht
    · rw [ht]
      exact fun h => by cases h
    · rw [ht]
      exact fun h => by cases h

theorem Sends.numChunks {S : Source} {p : Packet} (h : S.Sends p) : p.numChunks.toNat = S.count := by
  rcases h.cases with rfl | ⟨i, hi⟩
  · rfl
  · exact hi.numChunks

theorem Sends.payload_lt {S : Source} {p : Packet} (h : S.Sends p) : p.payload.length < 2 ^ 32 := by
  rcases h.cases with rfl | ⟨i, hi⟩
  · exact S.nameFits
  · have := S.payloadSize_le
    rw [hi.payload, length_piece]
    omega

/-- A packet fits the receiver's buffer when the file's name does. -/
theorem Sends.length_le {S : Source} {p : Packet} (h : S.Sends p) (crc : Bytes → UInt32)
    (hname : HEADER_LEN + (Utf8.encode S.name).length ≤ MAX_CHUNK_SIZE) : (p.encode crc).length ≤ MAX_CHUNK_SIZE := by
  rw [length_encode]
  rcases h.cases with rfl | ⟨i, hi⟩
  · exact hname
  · have hle := S.payloadSize_le
    have hpiece := S.length_piece i
    rw [hi.payload]
    simp only [HEADER_LEN, MAX_CHUNK_SIZE]
    omega

theorem nameFits_letter (letter : Char) : (Utf8.encode [letter]).length < 2 ^ 32 := by
  have h := letter.utf8Size_le_four
  simp only [Utf8.encode, List.flatMap_cons, List.flatMap_nil, List.append_nil, String.length_utf8EncodeChar]
  omega

theorem countFits_forty {bytes : Bytes} (h : bytes.length = 40) {chunkSize : Nat}
    (sizeOk : MIN_CHUNK_SIZE ≤ chunkSize ∧ chunkSize ≤ MAX_CHUNK_SIZE) :
    (bytes.length + (chunkSize - HEADER_LEN) - 1) / (chunkSize - HEADER_LEN) ≤ 2 ^ 32 - 8 := by
  have hle := Nat.div_le_self (bytes.length + (chunkSize - HEADER_LEN) - 1) (chunkSize - HEADER_LEN)
  simp only [h, MAX_CHUNK_SIZE] at *
  omega

theorem sizeOk_64 : MIN_CHUNK_SIZE ≤ 64 ∧ 64 ≤ MAX_CHUNK_SIZE := by decide

/-- A small file: forty bytes under a name of one letter. -/
def sample (fileId : FileId) (letter : Char) (nameOk : normalComponents [letter] ≠ []) (chunkSize : Nat)
    (sizeOk : MIN_CHUNK_SIZE ≤ chunkSize ∧ chunkSize ≤ MAX_CHUNK_SIZE) : Source where
  fileId := fileId
  name := [letter]
  bytes := (List.range 40).map UInt8.ofNat
  chunkSize := chunkSize
  sizeOk := sizeOk
  nameOk := nameOk
  nameFits := nameFits_letter letter
  countFits := countFits_forty rfl sizeOk

def sampleA : Source := sample 1 'a' (by decide) 64 sizeOk_64
def sampleB : Source := sample 2 'b' (by decide) 65 (by decide)

/-- The packets of the chunks listed. -/
def dataPackets (S : Source) (ids : List UInt32) : List Packet := ids.filterMap (fun i => (S.chunker.dataPacket i).toOption)

theorem sends_dataPackets {S : Source} {ids : List UInt32} {p : Packet} (h : p ∈ S.dataPackets ids) : S.Sends p := by
  obtain ⟨i, -, hi⟩ := List.mem_filterMap.1 h
  cases hd : S.chunker.dataPacket i with
  | error e => rw [hd] at hi; cases hi
  | ok q =>
    rw [hd] at hi
    cases hi
    exact .data i _ hd

end Source

end Parachuter
