import Parachuter.Ground
/-!
# Resize — a chunk size changed in mid-transfer

One file sent at two chunk sizes under one id.  The reassembler's only guard is the chunk count: when the two sizes cut
the file into different numbers of chunks, a packet of the other size is always turned away, and the streams may be
mixed at will; when the counts agree, the guard sees nothing.
-/
namespace Parachuter

open Blob (Bytes)
open Calls (Res)

/-- One file, cut at two different chunk sizes, of which one at least gives several chunks. -/
structure TwoSizes (A B : Source) : Prop where
  fileId    : A.fileId = B.fileId
  name      : A.name = B.name
  bytes     : A.bytes = B.bytes
  chunkSize : A.chunkSize ≠ B.chunkSize
  several   : 1 < A.count ∨ 1 < B.count

/-- **The change is caught**: along every mixed run, an assembly whose payload size comes from packets of `A` turns away
every chunk of `B` and leaves both its files as they are, and what is published is the file. -/
def ChangeCaught (crc : Bytes → UInt32) (finals : Path) (A B : Source) : Prop :=
  ∀ (sameFs : Bool) (ds : List Bytes), (∀ b ∈ ds, Ground.Honest crc [A, B] b) →
    (∀ m, (receiveAll crc finals ds (Disk.fresh finals sameFs)).sidecar crc A.fileId = some m →
      m.numChunks = A.chunker.numChunks → m.chunkPayloadSize.toNat = A.stride →
      ∀ i pkt, B.chunker.dataPacket i = .ok pkt ∨ B.chunker.retransmitPacket i = .ok pkt →
        (Reassembler.ingest crc pkt).exec (receiveAll crc finals ds (Disk.fresh finals sameFs)) =
          (.ok .mismatched, receiveAll crc finals ds (Disk.fresh finals sameFs))) ∧
    ∀ p b, (receiveAll crc finals ds (Disk.fresh finals sameFs)).node p = some (.file b) → b = A.bytes

namespace TwoSizes

variable {crc : Bytes → UInt32} {finals : Path} {A B : Source}

theorem streams (h : TwoSizes A B) (hc : A.count ≠ B.count) : Streams finals [A, B] := by
  refine ⟨fun S hS T hT _ => ?_, fun S hS T hT hid => ?_⟩
  · simp only [List.mem_cons, List.not_mem_nil, or_false] at hS hT
    rcases hS with rfl | rfl <;> rcases hT with rfl | rfl
    · exact ⟨rfl, rfl, .inl rfl⟩
    · exact ⟨h.name, h.bytes, .inr hc⟩
    · exact ⟨h.name.symm, h.bytes.symm, .inr (Ne.symm hc)⟩
    · exact ⟨rfl, rfl, .inl rfl⟩
  · simp only [List.mem_cons, List.not_mem_nil, or_false] at hS hT
    rcases hS with rfl | rfl <;> rcases hT with rfl | rfl
    · exact absurd rfl hid
    · exact absurd h.fileId hid
    · exact absurd h.fileId.symm hid
    · exact absurd rfl hid

theorem Sends_of {S : Source} {i : UInt32} {pkt : Packet}
    (h : S.chunker.dataPacket i = .ok pkt ∨ S.chunker.retransmitPacket i = .ok pkt) : S.Sends pkt := by
  rcases h with h | h
  · exact .data i pkt h
  · exact .retransmit i pkt h

/-- **Different counts: the change is caught.** -/
theorem caught_of_count_ne (h : TwoSizes A B) (hc : A.count ≠ B.count) : ChangeCaught crc finals A B := by
  intro sameFs ds hds
  have hs : Streams finals [A, B] := h.streams hc
  have hg := Ground.receiveAll hs ds (@Ground.fresh crc finals [A, B] sameFs) hds
  generalize receiveAll crc finals ds (Disk.fresh finals sameFs) = d at hg
  refine ⟨fun m hm hn _ i pkt hp => ?_, fun p b hp => ?_⟩
  · rcases hg.held A.fileId with ⟨h1, -⟩ | ⟨S, hS, hid, a, ha⟩
    · -- no assembly, so no sidecar
      rw [Disk.sidecar, h1] at hm
      cases hm
    · obtain ⟨m', hm', hsd⟩ := ha
      rw [hid] at hm'
      rw [Disk.sidecar_of hm' (hsd.parse crc)] at hm
      cases hm
      have hSA : S.count = A.count := by rw [← hsd.count, hn]; rfl
      refine Source.ingest_other_count (S := S) (a := a) ⟨m, by rw [hid]; exact hm', hsd⟩ (Sends_of hp)
        (by rw [hid, h.fileId]) ?_
      rw [hSA]
      exact Ne.symm hc
  · obtain ⟨S, hS, -, rfl⟩ := hg.files p b hp
    simp only [List.mem_cons, List.not_mem_nil, or_false] at hS
    rcases hS with rfl | rfl
    · rfl
    · exact h.bytes.symm

theorem receiveAll_first {S : Source} {sameFs : Bool} {p : Packet} (hp : S.Sends p)
    (hfit : (p.encode crc).length ≤ MAX_CHUNK_SIZE)
    (ho : (Progress.step S.count none p.delivery).1 ≠ .complete) :
    S.Assembly crc (receiveAll crc finals [p.encode crc] (Disk.fresh finals sameFs))
      (Progress.step S.count none p.delivery).2 := by
  have hnone : S.Assembly crc (Disk.fresh finals sameFs) none := ⟨rfl, rfl⟩
  obtain ⟨d', hd', ha', -⟩ := Source.ingest_simulates hnone hp
  have hrec : receiveAll crc finals [p.encode crc] (Disk.fresh finals sameFs) = d' := by
    show ((receive crc finals (p.encode crc)).exec (Disk.fresh finals sameFs)).2 = d'
    rw [exec_receive_encode crc finals hp.payload_lt, if_pos hfit, receivePacket_ok hd', if_neg ho]
  rw [hrec]
  exact ha'

theorem first_chunk {S : Source} (sameFs : Bool) (hmany : 1 < S.count) : ∃ p, S.chunker.dataPacket 0 = .ok p ∧
    S.Assembly crc (receiveAll crc finals [p.encode crc] (Disk.fresh finals sameFs)) (some ⟨{0}, false⟩) := by
  refine ⟨_, S.dataPacket_eq 0 (Nat.lt_of_succ_lt hmany), ?_⟩
  have hp := S.dataPacket_eq 0 (Nat.lt_of_succ_lt hmany)
  generalize (⟨.data, _, _, _, _, _⟩ : Packet) = p at hp ⊢
  obtain ⟨htype, hc⟩ := S.isChunk_dataPacket hp
  have hdel : p.delivery = .chunk 0 := by
    rw [Packet.delivery, htype, hc.chunkId]; rfl
  have hdef : Progress.deferred S.count 0 ((none : Option Progress).getD Progress.empty) = false := by
    rw [Progress.deferred, decide_eq_false (by omega)]; rfl
  have hfit : (p.encode crc).length ≤ MAX_CHUNK_SIZE := by
    have h1 := S.payloadSize_le
    rw [length_encode, hc.payload, S.length_piece]
    simp only [HEADER_LEN, MAX_CHUNK_SIZE]
    omega
  have hstep : Progress.step S.count none p.delivery = (.accepted, some ⟨{0}, false⟩) := by
    rw [hdel, Progress.step_chunk hdef]
    rfl
  have hfirst := @receiveAll_first crc finals S sameFs p (.data 0 p hp) hfit (by rw [hstep]; decide)
  rw [hstep] at hfirst
  exact hfirst

/-- **Equal counts: the change is not caught.**  The first chunk at the one size is followed by the first chunk at the
other, which is taken for a duplicate. -/
theorem not_caught_of_count_eq (h : TwoSizes A B) (hc : A.count = B.count) : ¬ ChangeCaught crc finals A B := by
  intro hcaught
  have hmany : 1 < A.count := by
    rcases h.several with h1 | h1
    · exact h1
    · rw [hc]; exact h1
  obtain ⟨p, hp, hfirst⟩ := @first_chunk crc finals A true hmany
  obtain ⟨hcatch, -⟩ := hcaught true [p.encode crc] (by
    intro b hb
    rw [List.mem_singleton] at hb
    exact ⟨A, by simp, p, .data 0 p hp, hb⟩)
  generalize receiveAll crc finals [p.encode crc] (Disk.fresh finals true) = d at hfirst hcatch
  obtain ⟨m, hm, hsd⟩ := hfirst
  obtain ⟨q, hq⟩ : ∃ q, B.chunker.dataPacket 0 = .ok q := ⟨_, B.dataPacket_eq 0 (hc ▸ Nat.lt_of_succ_lt hmany)⟩
  obtain ⟨htype, hcq⟩ := B.isChunk_dataPacket hq
  have h0 : q.chunkId.toNat = 0 := hcq.chunkId
  have hsize : m.chunkPayloadSize.toNat = A.stride := by
    rw [hsd.size, if_neg (Finset.singleton_ne_empty _)]
  have hmis := hcatch m (Disk.sidecar_of hm (hsd.parse crc)) hsd.numChunks hsize 0 q (.inl hq)
  -- the packet passes the count check and meets its own chunk id marked
  have hdup : ((Reassembler.ingestChunk crc q).exec d).1 = .ok .duplicate := by
    refine Reassembler.ingestChunk_marked (by rw [hcq.fileId, ← h.fileId]; exact hm) (hsd.parse crc)
      (UInt32.toNat_inj.1 (by rw [hsd.count, hcq.numChunks, hc])) (fun hz => ?_) ?_ ?_
    · rw [hz] at hsize
      exact absurd hsize.symm (Nat.ne_of_gt (A.stride_pos (Nat.ne_of_gt hmany)))
    · show Bitmap.getBit m.bitmap q.chunkId.toNat = true
      rw [h0]
      exact (hsd.has 0).2 (Finset.mem_singleton_self 0)
    · have h1 := B.payloadSize_le
      rw [h0, Nat.zero_mul, Nat.zero_add, hcq.payload, B.length_piece, FsCall.OFFSET_MAX]
      omega
  have hing : Reassembler.ingest crc q = Reassembler.ingestChunk crc q := by
    unfold Reassembler.ingest; rw [htype]
  rw [hing] at hmis
  rw [hmis] at hdup
  cases hdup

end TwoSizes

/-- **A chunk-size change is caught exactly when it changes the chunk count.** -/
theorem change_caught_iff (crc : Bytes → UInt32) (finals : Path) (A B : Source) (h : TwoSizes A B) :
    ChangeCaught crc finals A B ↔ A.count ≠ B.count :=
  ⟨fun hc he => h.not_caught_of_count_eq he hc, h.caught_of_count_ne⟩

/-- The same file at chunk sizes 64 and 96: two chunks, or one. -/
theorem change_caught_iff_one_chunk :
    ChangeCaught crc32 [] Source.sampleA (Source.sample 1 'a' (by decide) 96 (by decide)) :=
  (change_caught_iff crc32 [] Source.sampleA (Source.sample 1 'a' (by decide) 96 (by decide))
    ⟨rfl, rfl, rfl, by decide, by decide⟩).2 (by decide)

/-- **At chunk sizes 64 and 65 the same file has two chunks both times, and the mix is published**: the first chunk of
the one and the last of the other make 39 bytes out of 40, with one byte lost. -/
theorem change_not_caught_same_count :
    let B := Source.sample 1 'a' (by decide) 65 (by decide)
    let ps := Source.sampleA.dataPackets [0] ++ B.dataPackets [1] ++ [B.chunker.manifestPacket B.name]
    (receiveAll crc32 [] (ps.map (Packet.encode crc32)) (Disk.fresh [] true)).node (B.ground []) =
      some (.file ((List.range 32 ++ List.range' 33 7).map UInt8.ofNat)) ∧
    ¬ ChangeCaught crc32 [] Source.sampleA B := by
  intro B ps
  exact ⟨by decide +kernel, TwoSizes.not_caught_of_count_eq ⟨rfl, rfl, rfl, by decide, by decide⟩ (by decide)⟩

end Parachuter
