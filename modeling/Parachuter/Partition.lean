import Parachuter.Chunker
/-!
# The chunks of a file as a partition of it (`Chunker::open`, `data_packet` and `chunks_for_size`)

`Chunker.Partitions` is what a chunker promises: packets for its chunk ids and no others, full but for the last, and
together the file.  The count is cut to 32 bits without a check, so it is kept exactly while that count has 32 bits
(`chunks_partition_iff`), and no chunker covers a longer file.
-/
namespace Parachuter

open Blob (Bytes)

theorem flatMap_pieces (file : Bytes) (p : Nat) : ∀ n : Nat,
    (List.range n).flatMap (fun i => (file.drop (i * p)).take p) = file.take (n * p)
  | 0     => by simp
  | n + 1 => by
    rw [List.range_succ, List.flatMap_append, flatMap_pieces file p n, Nat.succ_mul, List.take_add]
    simp

namespace Chunker

/-- The payload of chunk `i`; nothing where there is no packet. -/
def payloadAt (c : Chunker) (i : UInt32) : Bytes :=
  match c.dataPacket i with
  | .ok p    => p.payload
  | .error _ => []

/-- What a chunker promises of a file.  `offset` is that neither the product nor the difference `data_packet` computes leaves
a `u64`, `pos` that `num_chunks - 1` does not leave a `u32`. -/
structure Partitions (c : Chunker) : Prop where
  pos     : 0 < c.numChunks.toNat
  offset  : ∀ i : UInt32, i < c.numChunks → i.toNat * c.payloadSize < 2 ^ 64 ∧ i.toNat * c.payloadSize ≤ c.fileSize
  packet  : ∀ i : UInt32, i < c.numChunks → ∃ p, c.dataPacket i = .ok p ∧
    p.flags.isLast = decide (i.toNat + 1 = c.numChunks.toNat) ∧
    (i.toNat + 1 < c.numChunks.toNat → p.payload.length = c.payloadSize)
  outside : ∀ i : UInt32, ¬ i < c.numChunks → c.dataPacket i = .error (.outOfRange i c.numChunks)
  whole   : (List.range c.numChunks.toNat).flatMap (fun i => c.payloadAt (UInt32.ofNat i)) = c.file

section
variable {c : Chunker}

theorem payload_dataPacket {i : UInt32} {p : Packet} (h : c.dataPacket i = .ok p) :
    p.payload = (c.file.drop (i.toNat * c.payloadSize)).take c.payloadSize := by
  unfold dataPacket at h
  split at h
  · cases h
  cases h
  show (c.file.drop _).take (min (c.fileSize - _) _) = _
  rw [Nat.min_comm, ← List.take_take]
  congr 1
  exact List.take_of_length_le (by rw [List.length_drop, fileSize])

theorem payloadAt_eq {i : UInt32} (h : i < c.numChunks) :
    c.payloadAt i = (c.file.drop (i.toNat * c.payloadSize)).take c.payloadSize := by
  obtain ⟨p, hp⟩ := dataPacket_of_lt h
  rw [payloadAt, hp]
  exact payload_dataPacket hp

theorem length_payloadAt_le (i : UInt32) : (c.payloadAt i).length ≤ c.payloadSize := by
  unfold payloadAt
  split
  · rename_i p hp
    exact (carries_dataPacket hp).payload
  · exact Nat.zero_le _

theorem ofNat_lt_numChunks {i : Nat} (h : i < c.numChunks.toNat) :
    UInt32.ofNat i < c.numChunks ∧ (UInt32.ofNat i).toNat = i := by
  have hi : (UInt32.ofNat i).toNat = i := UInt32.toNat_ofNat_of_lt' (Nat.lt_trans h c.numChunks.toNat_lt)
  exact ⟨by rw [UInt32.lt_iff_toNat_lt, hi]; exact h, hi⟩

/-- **A chunker whose count covers the file** keeps its promise. -/
theorem partitions_of_cover (hp : c.payloadSize ≤ MAX_CHUNK_SIZE) (hpos : 0 < c.numChunks.toNat)
    (hlow : (c.numChunks.toNat - 1) * c.payloadSize ≤ c.fileSize) (hhigh : c.fileSize ≤ c.numChunks.toNat * c.payloadSize) :
    c.Partitions where
  pos := hpos
  offset i hi := by
    rw [UInt32.lt_iff_toNat_lt] at hi
    have hle : i.toNat * c.payloadSize ≤ (c.numChunks.toNat - 1) * c.payloadSize := Nat.mul_le_mul_right _ (by omega)
    have hbig : i.toNat * c.payloadSize ≤ 2 ^ 32 * MAX_CHUNK_SIZE :=
      Nat.mul_le_mul (Nat.le_of_lt i.toNat_lt) hp
    exact ⟨Nat.lt_of_le_of_lt hbig (by decide), Nat.le_trans hle hlow⟩
  packet i hi := by
    obtain ⟨p, hdata⟩ := dataPacket_of_lt hi
    have hlast : i = c.numChunks - 1 ↔ i.toNat + 1 = c.numChunks.toNat := by
      rw [← UInt32.toNat_inj, UInt32.toNat_sub_of_le _ _ (by rw [UInt32.le_iff_toNat_le]; exact hpos)]
      show i.toNat = c.numChunks.toNat - 1 ↔ _
      omega
    refine ⟨p, hdata, ?_, fun hnext => ?_⟩
    · rw [(carries_dataPacket hdata).isLast]
      exact decide_eq_decide.2 hlast
    · have hle : (i.toNat + 1) * c.payloadSize ≤ (c.numChunks.toNat - 1) * c.payloadSize :=
        Nat.mul_le_mul_right _ (by omega)
      rw [Nat.succ_mul] at hle
      rw [payload_dataPacket hdata, List.length_take, List.length_drop]
      unfold fileSize at hlow
      omega
  outside i hi := dataPacket_of_not_lt hi
  whole := by
    have hpieces : (List.range c.numChunks.toNat).flatMap (fun i => c.payloadAt (UInt32.ofNat i)) =
        (List.range c.numChunks.toNat).flatMap (fun i => (c.file.drop (i * c.payloadSize)).take c.payloadSize) := by
      rw [List.flatMap_def, List.flatMap_def]
      congr 1
      refine List.map_congr_left (fun i hi => ?_)
      obtain ⟨hlt, hi'⟩ := ofNat_lt_numChunks (List.mem_range.1 hi)
      rw [payloadAt_eq hlt, hi']
    rw [hpieces, flatMap_pieces]
    exact List.take_of_length_le hhigh

/-- The chunks of a count of 32 bits hold no more than that many payloads. -/
theorem Partitions.fileSize_le (h : c.Partitions) : c.fileSize ≤ (2 ^ 32 - 1) * c.payloadSize := by
  have hsum : ∀ n : Nat, ((List.range n).flatMap (fun i => c.payloadAt (UInt32.ofNat i))).length ≤ n * c.payloadSize := by
    intro n
    induction n with
    | zero => simp
    | succ n ih =>
      have hone := @length_payloadAt_le c (UInt32.ofNat n)
      rw [List.range_succ, List.flatMap_append, List.length_append, Nat.succ_mul]
      simpa using Nat.add_le_add ih hone
  have hcount : c.numChunks.toNat ≤ 2 ^ 32 - 1 := Nat.le_of_lt_succ c.numChunks.toNat_lt
  calc c.fileSize = ((List.range c.numChunks.toNat).flatMap (fun i => c.payloadAt (UInt32.ofNat i))).length := by
        rw [h.whole, fileSize]
    _ ≤ c.numChunks.toNat * c.payloadSize := hsum _
    _ ≤ (2 ^ 32 - 1) * c.payloadSize := Nat.mul_le_mul_right _ hcount

end

end Chunker

/-- **Chunking partitions the file exactly when its chunks can be counted in 32 bits.** -/
theorem chunks_partition_iff (files : List Char → Option Bytes) (path : List Char) (fileId : FileId) (chunkSize : Nat)
    (c : Chunker) (h : Chunker.open files path fileId chunkSize = .ok c) :
    c.Partitions ↔ c.fileSize ≤ (2 ^ 32 - 1) * c.payloadSize := by
  constructor
  · exact Chunker.Partitions.fileSize_le
  · intro hsize
    have hok : MIN_CHUNK_SIZE ≤ chunkSize ∧ chunkSize ≤ MAX_CHUNK_SIZE := by
      unfold Chunker.open at h
      split at h
      · cases h
      · rename_i hok
        exact not_not.1 hok
    obtain ⟨file, -, rfl⟩ := Chunker.open_ok h
    have hp : 0 < chunkSize - HEADER_LEN := Nat.sub_pos_of_lt (Nat.lt_of_lt_of_le (by decide) hok.1)
    have hp' : chunkSize - HEADER_LEN ≤ 64968 := Nat.sub_le_sub_right hok.2 HEADER_LEN
    obtain ⟨hpos, hlow, hhigh⟩ := chunksForSize_spec hp hp' hsize
    exact Chunker.partitions_of_cover (Nat.le_trans hp' (by decide)) hpos hlow hhigh

/-- Forty bytes at the smallest chunk size. -/
theorem chunks_partition_iff_forty :
    let c : Chunker := ⟨List.replicate 40 0, 1, 64, 32, 2⟩
    Chunker.open (fun _ => some (List.replicate 40 0)) [] 1 64 = .ok c ∧
      (c.Partitions ↔ c.fileSize ≤ (2 ^ 32 - 1) * c.payloadSize) :=
  ⟨by decide, chunks_partition_iff (fun _ => some (List.replicate 40 0)) [] 1 64 _ (by decide)⟩

/-- A file one chunk too long has no chunk at all. -/
theorem chunks_do_not_partition :
    let file : Bytes := List.replicate (2 ^ 32 * 32) 0
    file.length < 2 ^ 64 ∧ ∃ c, Chunker.open (fun _ => some file) [] 1 64 = .ok c ∧ c.numChunks = 0 ∧ ¬ c.Partitions := by
  intro file
  have hlen : file.length = 2 ^ 32 * 32 := List.length_replicate
  have hcount : chunksForSize file.length (64 - HEADER_LEN) = 0 := by rw [hlen]; decide
  have hopen := @Chunker.open_some (fun _ => some file) [] 64 file (by decide) rfl 1
  rw [hcount] at hopen
  exact ⟨by rw [hlen]; decide, _, hopen, rfl, fun h => absurd h.pos (by decide)⟩

end Parachuter
