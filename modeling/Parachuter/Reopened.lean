import Parachuter.Ground
import Parachuter.Plan
import Parachuter.Sidecars
/-!
# Reopened — a retransmit of a file that is not in holding

The ground takes a retransmit as it takes any chunk: with no sidecar there, it starts an assembly.  So a chunk asked for
twice, the second copy of which comes after the file is finished, puts the file in flight again, and the cleaner asks for
all the rest of it.  Only the last of several chunks starts nothing.
-/
namespace Parachuter

open Blob (Bytes)
open Calls (Any)

/-- There is a sidecar of the id. -/
def Disk.Started (id : FileId) (d : Disk) : Prop := d.get (.manifest id) ≠ none

/-- A sidecar stays while packets are ingested. -/
theorem Reassembler.saves_started (crc : Bytes → UInt32) (id : FileId) :
    Saves crc (Disk.Started id) (fun _ => True) where
  frame d d' h hd := by
    unfold Disk.Started
    rw [h id]
    exact hd
  saved id' m d _ hd := by
    unfold Disk.Started
    rw [Manifest.sidecar_saved]
    split
    · exact Option.some_ne_none _
    · exact hd
  hint _ := trivial
  size _ := trivial
  mark _ := trivial

namespace Reassembler

variable {crc : Bytes → UInt32}

/-! ## A chunk of a file that is not there -/

theorem storedUnder_new {pkt : Packet} {d : Disk} (hnone : d.get (.manifest pkt.fileId) = none) :
    storedUnder crc d pkt = if pkt.flags.isLast && 1 < pkt.numChunks then none else
      some ⟨UInt32.ofNat pkt.payload.length, pkt.numChunks, 0, [], List.replicate (Manifest.bitmapLen pkt.numChunks) 0⟩ := by
  have hside : d.sidecar crc pkt.fileId = none := Found.sidecar (o := none) hnone
  unfold storedUnder
  rw [hside]

theorem ingestChunk_tail {pkt : Packet} {d : Disk} (hnone : d.get (.manifest pkt.fileId) = none)
    (ht : (pkt.flags.isLast && decide (1 < pkt.numChunks)) = true) :
    (ingestChunk crc pkt).exec d = (.ok .mismatched, d) :=
  ingestChunk_turned (o := none) hnone (by rw [storedUnder_new hnone, if_pos ht])

theorem started_ingestChunk {pkt : Packet} {d : Disk} (hnone : d.get (.manifest pkt.fileId) = none)
    (ht : ¬ (pkt.flags.isLast && decide (1 < pkt.numChunks)) = true) :
    (((ingestChunk crc pkt).exec d).2).Started pkt.fileId := by
  have hstored := (@storedUnder_new crc pkt d hnone).trans (if_neg ht)
  obtain ⟨d₀, heq, hprep⟩ := ingestChunk_stored (o := none) hnone hstored
  have hstore : ∀ m, (storeChunk crc pkt m).Always anyStrike True (Disk.Started pkt.fileId) Any := fun m =>
    (saves_started crc pkt.fileId).storeChunk (fun _ _ _ => trivial) pkt trivial
  rw [heq]
  refine ((hstore _).keeps d₀ ?_).1
  unfold Disk.Started
  rw [hprep.sidecar]
  exact Option.some_ne_none _

end Reassembler

/-- The packet left nothing of the id in holding: it is not listed, and nothing of it is asked for. -/
structure NotStarted (crc : Bytes → UInt32) (id : FileId) (d d' : Disk) : Prop where
  manifest : d'.get (.manifest id) = none
  incoming : d'.get (.incoming id) = d.get (.incoming id)
  listed   : id ∉ Reassembler.inFlight d'
  planned  : ∀ p ∈ Cleaner.plan crc d', p.fileId ≠ id

theorem NotStarted.of_none {crc : Bytes → UInt32} {id : FileId} {d : Disk} (h : d.get (.manifest id) = none) :
    NotStarted crc id d d := by
  have hlisted : id ∉ Reassembler.inFlight d := fun hl => Reassembler.mem_inFlight.1 hl h
  refine ⟨h, rfl, hlisted, fun p hp heq => hlisted ?_⟩
  unfold Cleaner.plan Cleaner.planning at hp
  obtain ⟨j, hj, hp⟩ := List.mem_flatMap.1 hp
  rw [← heq, Cleaner.planned_fileId hp]
  exact hj

/-- **A retransmit of a file with no sidecar starts nothing exactly when it is the last of several chunks**, whatever
datagrams came before it. -/
theorem retransmit_starts_nothing_iff (crc : Bytes → UInt32) (finals : Path) (ds : List Bytes) (d₀ : Disk) (c : Chunker)
    (i : UInt32) (pkt : Packet) (hp : c.retransmitPacket i = .ok pkt)
    (hnone : (receiveAll crc finals ds d₀).get (.manifest c.fileId) = none) :
    NotStarted crc c.fileId (receiveAll crc finals ds d₀)
      ((Reassembler.ingest crc pkt).exec (receiveAll crc finals ds d₀)).2 ↔ 1 < c.numChunks ∧ i = c.numChunks - 1 := by
  generalize receiveAll crc finals ds d₀ = d at hnone ⊢
  have hc := Chunker.carries_retransmitPacket hp
  have hingest : Reassembler.ingest crc pkt = Reassembler.ingestChunk crc pkt := by
    unfold Reassembler.ingest
    rcases hc.isChunk with h | h
    · rw [h]
    · rw [h]
  have htail : (pkt.flags.isLast && decide (1 < pkt.numChunks)) = true ↔ 1 < c.numChunks ∧ i = c.numChunks - 1 := by
    rw [hc.isLast, hc.numChunks, Bool.and_eq_true, decide_eq_true_iff, decide_eq_true_iff, and_comm]
  rw [hingest, ← htail, ← hc.fileId]
  rw [← hc.fileId] at hnone
  constructor
  · intro h
    by_contra ht
    exact Reassembler.started_ingestChunk hnone ht h.manifest
  · intro ht
    rw [Reassembler.ingestChunk_tail hnone ht]
    exact .of_none hnone

/-- The last chunk of two, retransmitted after the file is finished, starts nothing. -/
theorem retransmit_starts_nothing_last :
    let ps := Source.sampleA.dataPackets [0, 1] ++ [Source.sampleA.chunker.manifestPacket Source.sampleA.name]
    let d := receiveAll crc32 [] (ps.map (Packet.encode crc32)) (Disk.fresh [] true)
    ∃ pkt, Source.sampleA.chunker.retransmitPacket 1 = .ok pkt ∧
      NotStarted crc32 1 d ((Reassembler.ingest crc32 pkt).exec d).2 := by
  intro ps d
  obtain ⟨pkt, hp⟩ := @Chunker.retransmitPacket_of_lt Source.sampleA.chunker 1 (by decide)
  exact ⟨pkt, hp, (retransmit_starts_nothing_iff crc32 [] _ _ Source.sampleA.chunker 1 pkt hp (by decide +kernel)).2
    (by decide)⟩

/-- **Chunk 0, retransmitted, comes once more after the file is finished**: the file is in flight again, and its name is
asked for. -/
theorem retransmit_reopens_finished :
    let ps := Source.sampleA.dataPackets [0, 1] ++ [Source.sampleA.chunker.manifestPacket Source.sampleA.name]
    let d := receiveAll crc32 [] (ps.map (Packet.encode crc32)) (Disk.fresh [] true)
    let pkt : Packet := ⟨.retransmit, ⟨RETRANSMIT_HINT⟩, 1, 0, 2, Source.sampleA.bytes.take 32⟩
    let d' := ((Reassembler.ingest crc32 pkt).exec d).2
    d.node (Source.sampleA.ground []) = some (.file Source.sampleA.bytes) ∧ d.get (.manifest 1) = none ∧
    Source.sampleA.chunker.retransmitPacket 0 = .ok pkt ∧
    1 ∈ Reassembler.inFlight d' ∧ ∃ p ∈ Cleaner.plan crc32 d', p.fileId = 1 := by
  intro ps d pkt d'
  have hside : (d'.sidecar crc32 1).map (·.name) = some [] := by decide +kernel
  obtain ⟨m, hm, hname⟩ := Option.map_eq_some_iff.1 hside
  obtain ⟨buf, hbuf, -⟩ := Disk.sidecar_some hm
  refine ⟨by decide +kernel, by decide +kernel, rfl, ?_, (Cleaner.planned_iff hm).2 (.inl hname)⟩
  rw [Reassembler.mem_inFlight, hbuf]
  exact Option.some_ne_none buf

end Parachuter
