import Parachuter.Growth
/-!
# Rejected — what an ingest that answers `Mismatched`, `Duplicate` or `Ignored` leaves

A mismatched packet and a heartbeat are turned away before anything is written.  A duplicate is found out last: the payload
size is patched in and saved, and the data file is created, grown, written and cut, before the mark is looked at.  So a
duplicate changes nothing exactly when the bytes it brings are the ones that are there.
-/
namespace Parachuter

open Blob (Bytes Holds)
open Calls (Res)

namespace Reassembler

/-- An answer that the packet was not taken. -/
def Rejected (o : Res Error IngestOutcome) : Prop := o = .ok .mismatched ∨ o = .ok .duplicate ∨ o = .ok .ignored

variable {crc : Bytes → UInt32} {d d₀ : Disk} {pkt : Packet} {m : Manifest} {o : Option Manifest}

theorem not_rejected_outcome (m : Manifest) (d : Disk) : ¬ Rejected ((outcome m).exec d).1 := by
  unfold outcome Rejected
  split
  · rintro (h | h | h) <;> cases h
  · rename_i c _
    cases c <;> cases m.name.isEmpty <;> rintro (h | h | h) <;> cases h

end Reassembler

/-- Every sidecar and every data file is the same, or is still not there. -/
def Disk.SameFiles (d d' : Disk) : Prop :=
  ∀ id, d'.get (.manifest id) = d.get (.manifest id) ∧ d'.get (.incoming id) = d.get (.incoming id)

/-- The chunk `pkt` is there already under the sidecar `m`: the sidecar is the one on disk, as it is, and the data file has
the payload in its place and reaches its end, or ends there if the chunk is flagged last. -/
structure Packet.Again (crc : Bytes → UInt32) (d : Disk) (pkt : Packet) (m : Manifest) : Prop where
  sidecar : d.sidecar crc pkt.fileId = some m
  data    : ∃ b, d.get (.incoming pkt.fileId) = some b ∧ Holds b (pkt.offsetUnder m) pkt.payload ∧
    pkt.endUnder m ≤ b.length ∧ (pkt.flags.isLast = true → b.length = pkt.endUnder m)

/-- If the packet is a chunk that would be stored, is marked already and is not past the largest offset, it is there
already. -/
def Packet.Harmless (crc : Bytes → UInt32) (d : Disk) (pkt : Packet) : Prop :=
  (pkt.ptype = .data ∨ pkt.ptype = .retransmit) → ∀ m ∈ Reassembler.storedUnder crc d pkt,
    m.isSet pkt.chunkId = true → pkt.endUnder m ≤ FsCall.OFFSET_MAX → pkt.Again crc d m

namespace Reassembler

variable {crc : Bytes → UInt32} {d d₀ : Disk} {pkt : Packet} {m : Manifest} {o : Option Manifest}

/-- **Placing a chunk** on the disk it is stored on: nothing has changed exactly when it was there already. -/
theorem sameFiles_put_iff (hf : Found crc d pkt.fileId o) (hwf : m.Wf) (hprep : Prepared crc d pkt.fileId m d₀) :
    d.SameFiles (d₀.put (.incoming pkt.fileId) (placed pkt m d)) ↔ pkt.Again crc d m := by
  have hplaced : ∀ {b}, d.get (.incoming pkt.fileId) = some b →
      placed pkt m d = Blob.place b (pkt.offsetUnder m) pkt.payload pkt.flags.isLast := by
    intro b hb
    rw [placed, hb]
    rfl
  constructor
  · intro h
    obtain ⟨hman, hdata⟩ := h pkt.fileId
    rw [Disk.get_put_ne _ _ (by simp), hprep.sidecar] at hman
    rw [Disk.get_put_self] at hdata
    refine ⟨Disk.sidecar_of hman.symm (Manifest.parse_bytes crc m hwf), _, hdata.symm, ?_⟩
    exact Blob.place_eq_self_iff.1 (hplaced hdata.symm).symm
  · rintro ⟨hside, b, hb, hagain⟩ id
    have hman : d.get (.manifest pkt.fileId) = some (m.bytes crc) := by
      obtain rfl : o = some m := hf.sidecar.symm.trans hside
      exact hf.1
    rw [Disk.get_put_ne _ _ (by simp)]
    by_cases hid : id = pkt.fileId
    · rw [hid, hprep.sidecar, hman, Disk.get_put_self, hplaced hb, Blob.place_eq_self_iff.2 hagain, hb]
      exact ⟨rfl, rfl⟩
    · rw [hprep.frame.get (.manifest id) hid, Disk.get_put_ne _ _ (by simpa using hid), hprep.incoming]
      exact ⟨rfl, rfl⟩

theorem sameFiles_ingestChunk_iff (h : d.Regular crc) :
    (Rejected ((ingestChunk crc pkt).exec d).1 → d.SameFiles ((ingestChunk crc pkt).exec d).2) ↔
      ∀ m ∈ storedUnder crc d pkt, m.isSet pkt.chunkId = true → pkt.endUnder m ≤ FsCall.OFFSET_MAX → pkt.Again crc d m := by
  obtain ⟨o, hf⟩ := found h.readable pkt.fileId
  rcases ingestChunk_cases hf (h.short _) with ⟨hs, heq⟩ | ⟨m, d₀, hs, hprep, hcase⟩
  · rw [hs, heq]
    refine ⟨fun _ m hm => ?_, fun _ _ _ => ⟨rfl, rfl⟩⟩
    cases hm
  have hiff : (∀ m' ∈ storedUnder crc d pkt, m'.isSet pkt.chunkId = true → pkt.endUnder m' ≤ FsCall.OFFSET_MAX →
      pkt.Again crc d m') ↔ (m.isSet pkt.chunkId = true → pkt.endUnder m ≤ FsCall.OFFSET_MAX → pkt.Again crc d m) := by
    rw [hs]
    exact ⟨fun h => h m rfl, fun h m' hm' => by cases hm'; exact h⟩
  rw [hiff]
  rcases hcase with ⟨hfar, heq⟩ | ⟨hend, hset, heq⟩ | ⟨-, hclear, heq⟩
  · -- the file system refuses the chunk
    rw [heq]
    refine ⟨fun _ _ hle => absurd hle (Nat.not_le.2 hfar), fun _ hr => ?_⟩
    rcases hr with hr | hr | hr <;> cases hr
  · rw [heq, ← sameFiles_put_iff hf (grows_storedUnder hf hs).1 hprep]
    exact ⟨fun h _ _ => h (.inr (.inl rfl)), fun h _ => h hset hend⟩
  · rw [heq]
    refine ⟨fun _ hset => ?_, fun _ hr => absurd hr (not_rejected_outcome _ _)⟩
    rw [hclear] at hset
    cases hset

/-- **A manifest** that is rejected leaves everything. -/
theorem sameFiles_ingestManifest (h : d.Regular crc) (hr : Rejected ((ingestManifest crc pkt).exec d).1) :
    d.SameFiles ((ingestManifest crc pkt).exec d).2 := by
  obtain ⟨o, hf⟩ := found h.readable pkt.fileId
  cases hs : namedUnder crc d pkt with
  | none =>
    rw [ingestManifest_turned hf hs]
    exact fun _ => ⟨rfl, rfl⟩
  | some m =>
    obtain ⟨d₀, hd₀, -⟩ := ingestManifest_named hf hs
    rw [hd₀] at hr
    exact absurd hr (not_rejected_outcome m d₀)

end Reassembler

/-- **When a rejected packet changes nothing**, on any disk the receiver reaches and for any packet at all: exactly when it
is not a chunk marked already that brings something else than what is there. -/
theorem rejected_changes_nothing_iff (crc : Bytes → UInt32) (finals : Path) (sameFs : Bool) (es : List ReceiverStep)
    (hes : ∀ e ∈ es, e.Received crc) (pkt : Packet) :
    let d := ReceiverStep.run crc finals (Disk.fresh finals sameFs) es
    (Reassembler.Rejected ((Reassembler.ingest crc pkt).exec d).1 → d.SameFiles ((Reassembler.ingest crc pkt).exec d).2) ↔
      pkt.Harmless crc d := by
  intro d
  have hreg : d.Regular crc := ReceiverStep.regular_run es (ReceiverStep.regular_fresh crc finals sameFs) hes
  by_cases ht : pkt.ptype = .data ∨ pkt.ptype = .retransmit
  · rw [Reassembler.ingest_chunk ht, Reassembler.sameFiles_ingestChunk_iff hreg]
    exact ⟨fun h _ => h, fun h => h ht⟩
  · refine ⟨fun _ h => absurd h ht, fun _ hr => ?_⟩
    unfold Reassembler.ingest at hr ⊢
    cases htype : pkt.ptype with
    | data => exact absurd (.inl htype) ht
    | retransmit => exact absurd (.inr htype) ht
    | manifest =>
      rw [htype] at hr
      exact Reassembler.sameFiles_ingestManifest hreg hr
    | nameOnly =>
      rw [htype] at hr
      exact Reassembler.sameFiles_ingestManifest hreg hr
    | heartbeat => exact fun _ => ⟨rfl, rfl⟩

/-- The first of two chunks, twice. -/
theorem rejected_changes_nothing_same :
    let pkt : Packet := ⟨.data, .empty, 2, 0, 2, [1, 2, 3, 4]⟩
    let d := ReceiverStep.run crc32 [] (Disk.fresh [] true) [.ingest pkt]
    ((Reassembler.ingest crc32 pkt).exec d).1 = .ok .duplicate ∧ d.SameFiles ((Reassembler.ingest crc32 pkt).exec d).2 := by
  intro pkt d
  have hdup : ((Reassembler.ingest crc32 pkt).exec d).1 = .ok .duplicate := by decide +kernel
  refine ⟨hdup, (rejected_changes_nothing_iff crc32 [] true [.ingest pkt] ?_ pkt).2 ?_ (.inr (.inl hdup))⟩
  · intro e he
    rw [List.mem_singleton.1 he]
    exact Packet.received_of (by decide)
  · intro _ m hm _ _
    have hunder : Reassembler.storedUnder crc32 d pkt = some ⟨4, 2, 0, [], [1]⟩ := by decide +kernel
    have hsame := Option.some.inj (hunder.symm.trans hm)
    rw [← hsame]
    exact ⟨by decide +kernel, [1, 2, 3, 4], by decide +kernel, by decide, by decide, by decide⟩

/-- **Another payload under the same number**: the answer is `Duplicate`, and the data file has the second payload. -/
theorem rejected_overwrites :
    let pkt : Packet := ⟨.data, .empty, 2, 0, 2, [5, 6, 7, 8]⟩
    let d := ReceiverStep.run crc32 [] (Disk.fresh [] true) [.ingest ⟨.data, .empty, 2, 0, 2, [1, 2, 3, 4]⟩]
    let out := (Reassembler.ingest crc32 pkt).exec d
    out.1 = .ok .duplicate ∧ d.get (.incoming 2) = some [1, 2, 3, 4] ∧ out.2.get (.incoming 2) = some [5, 6, 7, 8] ∧
    ¬ d.SameFiles out.2 := by
  intro pkt d out
  have hold : d.get (.incoming 2) = some [1, 2, 3, 4] := by decide +kernel
  have hnew : out.2.get (.incoming 2) = some [5, 6, 7, 8] := by decide +kernel
  refine ⟨by decide +kernel, hold, hnew, fun h => ?_⟩
  have hsame := (h 2).2
  rw [hold, hnew] at hsame
  cases hsame

end Parachuter
