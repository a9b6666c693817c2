import Parachuter.Announced
import Parachuter.Checked
/-!
# Growth — what no packet takes back

Every ingest opens the sidecar anew, patches it in places and saves it on some of its ways out.  Whatever packet it is given,
the sidecar it leaves is the one it found, or says more: `Manifest.Grows` is what is never taken back.  `Disk.Ingested` says
this of the disk after one packet, with everything of the other assemblies as it was, and `ran_ingestAll` of any sequence.
-/
namespace Parachuter

open Blob (Bytes)

/-! ## Sidecars that say more -/

/-- What `m'` has of `m`: the count, a payload size once there is one, a name once there is one, and every mark. -/
structure Manifest.Grows (m m' : Manifest) : Prop where
  numChunks        : m'.numChunks = m.numChunks
  chunkPayloadSize : m.chunkPayloadSize ≠ 0 → m'.chunkPayloadSize = m.chunkPayloadSize
  name             : m.name ≠ [] → m'.name = m.name
  has              : ∀ i, m.has i = true → m'.has i = true

namespace Manifest.Grows

variable {m m' m'' : Manifest}

theorem refl (m : Manifest) : m.Grows m := ⟨rfl, fun _ => rfl, fun _ => rfl, fun _ h => h⟩

theorem trans (h : m.Grows m') (h' : m'.Grows m'') : m.Grows m'' where
  numChunks := h'.numChunks.trans h.numChunks
  chunkPayloadSize hz := by
    have hsame := h.chunkPayloadSize hz
    rw [h'.chunkPayloadSize (by rw [hsame]; exact hz), hsame]
  name hn := by
    have hsame := h.name hn
    rw [h'.name (by rw [hsame]; exact hn), hsame]
  has i hi := h'.has i (h.has i hi)

theorem patch (hz : m.chunkPayloadSize = 0) (n : UInt32) : m.Grows { m with chunkPayloadSize := n } :=
  ⟨rfl, fun h => absurd hz h, fun _ => rfl, fun _ h => h⟩

theorem rename (hn : m.name = []) (name : List Char) : m.Grows { m with name := name } :=
  ⟨rfl, fun _ => rfl, fun h => absurd hn h, fun _ h => h⟩

/-- The data is written, and the chunk marked. -/
theorem mark (m : Manifest) (pkt : Packet) (i : UInt32) : m.Grows ((Reassembler.hinted pkt m).set i) := by
  have hset : ∀ n : UInt64, m.Grows ({ m with fileSizeHint := n }.set i) := fun n =>
    ⟨rfl, fun _ => rfl, fun _ => rfl, fun _ h => Bitmap.getBit_setBit_of_getBit h _⟩
  unfold Reassembler.hinted
  split
  · exact hset _
  · exact hset m.fileSizeHint

/-- **The chunks received** do not go down. -/
theorem stats_le (h : m.Grows m') : m.stats.chunksReceived ≤ m'.stats.chunksReceived := by
  rw [UInt32.le_iff_toNat_le, chunksReceived_stats, chunksReceived_stats, h.numChunks]
  exact Finset.card_le_card (Finset.monotone_filter_right _ (fun i _ hi => h.has i hi))

end Manifest.Grows

theorem Manifest.wf_mark {m : Manifest} (h : m.Wf) (pkt : Packet) (i : UInt32) : ((Reassembler.hinted pkt m).set i).Wf := by
  have hstable := Manifest.stable_wf
  unfold Reassembler.hinted
  split
  · exact hstable.mark (hstable.hint h)
  · exact hstable.mark h

/-! ## The disk after one packet -/

/-- Every sidecar was saved whole, and no data file is longer than a file can be. -/
structure Disk.Regular (crc : Bytes → UInt32) (d : Disk) : Prop where
  readable : d.Readable crc
  short    : ∀ id, ((d.get (.incoming id)).getD []).length ≤ FsCall.OFFSET_MAX

/-- The disk `d'` after packets of one id: its sidecar says more, and nothing else has changed. -/
structure Disk.Ingested (crc : Bytes → UInt32) (id : FileId) (d d' : Disk) : Prop where
  frame   : Frame id d d'
  grows   : ∀ m, d.sidecar crc id = some m → ∃ m', d'.sidecar crc id = some m' ∧ m.Grows m'
  regular : d'.Regular crc

namespace Reassembler

variable {crc : Bytes → UInt32} {d d' : Disk} {id : FileId} {pkt : Packet} {m : Manifest} {o : Option Manifest}

theorem found (h : d.Readable crc) (id : FileId) : ∃ o, Found crc d id o := by
  cases hbuf : d.get (.manifest id) with
  | none => exact ⟨none, hbuf⟩
  | some buf =>
    obtain ⟨m, hm, rfl⟩ := h id buf hbuf
    exact ⟨some m, hbuf, hm⟩

/-- One sidecar is `m`, one data file is short, and the rest of the disk is as it was. -/
theorem Found.ingested (hf : Found crc d id o) (h : d.Regular crc) (hframe : Frame id d d')
    (hm : d'.get (.manifest id) = some (m.bytes crc)) (hwf : m.Wf) (hg : ∀ m₀, o = some m₀ → m₀.Grows m)
    (hshort : ((d'.get (.incoming id)).getD []).length ≤ FsCall.OFFSET_MAX) : d.Ingested crc id d' := by
  refine ⟨hframe, fun m₀ hm₀ => ⟨m, Disk.sidecar_of hm (Manifest.parse_bytes crc m hwf), ?_⟩, fun j buf hbuf => ?_, fun j => ?_⟩
  · rw [hf.sidecar] at hm₀
    exact hg m₀ hm₀
  · by_cases hj : j = id
    · rw [hj, hm] at hbuf
      cases hbuf
      exact ⟨m, hwf, rfl⟩
    · rw [hframe.get (.manifest j) hj] at hbuf
      exact h.readable j buf hbuf
  · by_cases hj : j = id
    · rw [hj]
      exact hshort
    · rw [hframe.get (.incoming j) hj]
      exact h.short j

theorem ingested_refl (h : d.Regular crc) (id : FileId) : d.Ingested crc id d :=
  ⟨.refl, fun m hm => ⟨m, hm, .refl m⟩, h⟩

theorem grows_storedUnder (hf : Found crc d pkt.fileId o) (h : storedUnder crc d pkt = some m) :
    m.Wf ∧ ∀ m₀, o = some m₀ → m₀.Grows m := by
  obtain ⟨-, -, ⟨rfl, rfl⟩ | ⟨m₀, rfl, hz, rfl⟩ | rfl⟩ := storedUnder_cases hf h
  · exact ⟨wf_fresh (by decide), fun _ h => by cases h⟩
  · refine ⟨Manifest.stable_wf.size hf.2, fun m h => ?_⟩
    cases h
    exact .patch hz _
  · refine ⟨hf.2, fun m₀ h => ?_⟩
    cases h
    exact .refl m

theorem grows_namedUnder (hf : Found crc d pkt.fileId o) (h : namedUnder crc d pkt = some m)
    (hname : (Utf8.encode (Utf8.decodeLossy pkt.payload)).length < 2 ^ 32) : m.Wf ∧ ∀ m₀, o = some m₀ → m₀.Grows m := by
  rcases namedUnder_cases hf h with ⟨rfl, rfl⟩ | ⟨m₀, rfl, hn, rfl⟩ | rfl
  · exact ⟨wf_fresh hname, fun _ h => by cases h⟩
  · refine ⟨⟨hf.2.bitmap, hname⟩, fun m h => ?_⟩
    cases h
    exact .rename hn _
  · refine ⟨hf.2, fun m₀ h => ?_⟩
    cases h
    exact .refl m

/-- **A chunk**, whatever it is: stored, stored again, turned away or refused. -/
theorem ingested_ingestChunk (h : d.Regular crc) (pkt : Packet) :
    d.Ingested crc pkt.fileId ((ingestChunk crc pkt).exec d).2 := by
  obtain ⟨o, hf⟩ := found h.readable pkt.fileId
  rcases ingestChunk_cases hf (h.short _) with ⟨-, heq⟩ | ⟨m, d₀, hs, hprep, hcase⟩
  · rw [heq]
    exact ingested_refl h _
  obtain ⟨hwf, hg⟩ := grows_storedUnder hf hs
  have hput : ∀ data : Bytes, data.length ≤ FsCall.OFFSET_MAX →
      d.Ingested crc pkt.fileId (d₀.put (.incoming pkt.fileId) data) := by
    intro data hshort
    refine hf.ingested h (hprep.frame.trans (.put_incoming data)) ?_ hwf hg ?_
    · rw [Disk.get_put_ne _ _ (by simp), hprep.sidecar]
    · rw [Disk.get_put_self]
      exact hshort
  have hshort : pkt.endUnder m ≤ FsCall.OFFSET_MAX → (placed pkt m d).length ≤ FsCall.OFFSET_MAX := by
    intro hend
    rw [placed, Blob.length_place]
    split
    · exact hend
    · exact max_le (h.short _) hend
  rcases hcase with ⟨-, heq⟩ | ⟨hend, -, heq⟩ | ⟨hend, -, heq⟩
  · rw [heq]
    exact hput _ (h.short _)
  · rw [heq]
    exact hput _ (hshort hend)
  · rw [heq, outcome_snd]
    refine hf.ingested h ((hput _ (hshort hend)).frame.trans (.saved crc _)) (Manifest.get_saved_self _ _ _ _)
      (Manifest.wf_mark hwf pkt _) (fun m₀ hm₀ => (hg m₀ hm₀).trans (.mark m pkt _)) ?_
    rw [Manifest.get_saved_incoming, Disk.get_put_self]
    exact hshort hend

theorem ingested_ingestManifest (h : d.Regular crc) (hlen : pkt.payload.length < 2 ^ 30) :
    d.Ingested crc pkt.fileId ((ingestManifest crc pkt).exec d).2 := by
  have hname : (Utf8.encode (Utf8.decodeLossy pkt.payload)).length < 2 ^ 32 := by
    have hle := Utf8.length_encode_decodeLossy_le pkt.payload
    omega
  obtain ⟨o, hf⟩ := found h.readable pkt.fileId
  cases hs : namedUnder crc d pkt with
  | none =>
    rw [ingestManifest_turned hf hs]
    exact ingested_refl h _
  | some m =>
    obtain ⟨d₀, hd₀, hprep⟩ := ingestManifest_named hf hs
    obtain ⟨hwf, hg⟩ := grows_namedUnder hf hs hname
    rw [hd₀, outcome_snd]
    refine hf.ingested h hprep.frame hprep.sidecar hwf hg ?_
    rw [hprep.incoming]
    exact h.short _

theorem ingested_ingest (h : d.Regular crc) (hlen : pkt.payload.length < 2 ^ 30) :
    d.Ingested crc pkt.fileId ((ingest crc pkt).exec d).2 := by
  unfold ingest
  cases pkt.ptype with
  | data => exact ingested_ingestChunk h pkt
  | retransmit => exact ingested_ingestChunk h pkt
  | manifest => exact ingested_ingestManifest h hlen
  | nameOnly => exact ingested_ingestManifest h hlen
  | heartbeat => exact ingested_refl h _

end Reassembler

/-! ## Runs -/

namespace ReceiverStep

def Received (crc : Bytes → UInt32) : ReceiverStep → Prop
  | .ingest pkt => pkt.Received crc
  | .finalize _ => True

variable {crc : Bytes → UInt32} {finals : Path}

theorem regular_fresh (crc : Bytes → UInt32) (finals : Path) (sameFs : Bool) : (Disk.fresh finals sameFs).Regular crc where
  readable id buf h := by cases h
  short _ := Nat.zero_le _

theorem regular_apply {d : Disk} (h : d.Regular crc) {e : ReceiverStep} (he : e.Received crc) :
    (apply crc finals d e).Regular crc := by
  cases e with
  | ingest pkt => exact (Reassembler.ingested_ingest h he.length_lt).regular
  | finalize id =>
    refine ⟨Reassembler.readable_finalize h.readable finals id, fun j => ?_⟩
    have hsame : ∀ {d' : Disk}, d'.get (.incoming j) = d.get (.incoming j) →
        ((d'.get (.incoming j)).getD []).length ≤ FsCall.OFFSET_MAX := fun heq => by rw [heq]; exact h.short j
    rcases Reassembler.finalize_holding crc finals id d with hall | ⟨-, hdata, hother⟩
    · exact hsame (hall _)
    · by_cases hj : j = id
      · rw [hj]
        show ((((Reassembler.finalize crc finals id).exec d).2.get (.incoming id)).getD []).length ≤ _
        rw [hdata]
        exact Nat.zero_le _
      · exact hsame (hother (.incoming j) hj)

theorem regular_run : ∀ (es : List ReceiverStep) {d : Disk}, d.Regular crc → (∀ e ∈ es, e.Received crc) →
    (run crc finals d es).Regular crc
  | [], _, h, _       => h
  | e :: es, _, h, he =>
    regular_run es (regular_apply h (he e List.mem_cons_self)) (fun e' h' => he e' (List.mem_cons_of_mem _ h'))

end ReceiverStep

namespace Reassembler

variable {crc : Bytes → UInt32}

/-- What a sequence of packets leaves, seen from one id: its sidecar says more, and if none of them was of the id, its two
files are the same. -/
structure Ran (crc : Bytes → UInt32) (ps : List Packet) (id : FileId) (d d' : Disk) : Prop where
  grows : ∀ m, d.sidecar crc id = some m → ∃ m', d'.sidecar crc id = some m' ∧ m.Grows m'
  other : (∀ p ∈ ps, p.fileId ≠ id) →
    d'.get (.manifest id) = d.get (.manifest id) ∧ d'.get (.incoming id) = d.get (.incoming id)

theorem ran_nil (crc : Bytes → UInt32) (id : FileId) (d : Disk) : Ran crc [] id d d :=
  ⟨fun m hm => ⟨m, hm, .refl m⟩, fun _ => ⟨rfl, rfl⟩⟩

theorem ran_cons {p : Packet} {ps : List Packet} {id : FileId} {d d' d'' : Disk} (h : d.Ingested crc p.fileId d')
    (hs : Ran crc ps id d' d'') : Ran crc (p :: ps) id d d'' where
  grows m hm := by
    have hfirst : ∃ m', d'.sidecar crc id = some m' ∧ m.Grows m' := by
      by_cases hid : id = p.fileId
      · rw [hid] at hm ⊢
        exact h.grows m hm
      · refine ⟨m, ?_, .refl m⟩
        unfold Disk.sidecar at hm ⊢
        rw [h.frame.get (.manifest id) hid, hm]
    obtain ⟨m', hm', hg⟩ := hfirst
    obtain ⟨m'', hm'', hg'⟩ := hs.grows m' hm'
    exact ⟨m'', hm'', hg.trans hg'⟩
  other hne := by
    have hid : id ≠ p.fileId := (hne p List.mem_cons_self).symm
    obtain ⟨hman, hdata⟩ := hs.other (fun q hq => hne q (List.mem_cons_of_mem _ hq))
    exact ⟨hman.trans (h.frame.get (.manifest id) hid), hdata.trans (h.frame.get (.incoming id) hid)⟩

theorem ran_ingestAll (id : FileId) : ∀ (ps : List Packet) {d : Disk}, d.Regular crc → (∀ p ∈ ps, p.Received crc) →
    Ran crc ps id d (ingestAll crc ps d).2
  | [], d, _, _       => ran_nil crc id d
  | p :: ps, d, h, hp => by
    have hfirst := ingested_ingest h (hp p List.mem_cons_self).length_lt
    exact ran_cons hfirst (ran_ingestAll id ps hfirst.regular (fun q hq => hp q (List.mem_cons_of_mem _ hq)))

end Reassembler

theorem Disk.Regular.stats {crc : Bytes → UInt32} {d : Disk} (h : d.Regular crc) {id : FileId} {s : AssemblyStats}
    (hs : ((Reassembler.stats crc id).exec d).1 = .ok s) : ∃ m, d.sidecar crc id = some m ∧ s = m.stats := by
  obtain ⟨o, hf⟩ := Reassembler.found h.readable id
  cases o with
  | none =>
    unfold Reassembler.stats at hs
    rw [Calls.exec_bind, Manifest.exec_open_none hf] at hs
    cases hs
  | some m =>
    rw [Reassembler.exec_stats hf.1 (Manifest.parse_bytes crc m hf.2)] at hs
    cases hs
    exact ⟨m, hf.sidecar, rfl⟩

theorem Disk.exec_stats {crc : Bytes → UInt32} {d : Disk} {id : FileId} {m : Manifest} (h : d.sidecar crc id = some m) :
    (Reassembler.stats crc id).exec d = (.ok m.stats, d) := by
  obtain ⟨buf, hbuf, hparse⟩ := Disk.sidecar_some h
  exact Reassembler.exec_stats hbuf hparse

/-- **Nothing is taken back.**  From whatever the receiver has made of its directories, any further packets, of any files and
in any order, leave of every sidecar its count, its payload size and its name once it has them, and every mark; the chunks
received do not go down; and the packets of other files leave both files of an assembly as they are. -/
theorem assembly_only_grows (crc : Bytes → UInt32) (finals : Path) (sameFs : Bool) (es : List ReceiverStep)
    (hes : ∀ e ∈ es, e.Received crc) (ps : List Packet) (hps : ∀ p ∈ ps, p.Received crc) (id : FileId) :
    let d := ReceiverStep.run crc finals (Disk.fresh finals sameFs) es
    let d' := (Reassembler.ingestAll crc ps d).2
    (∀ m, d.sidecar crc id = some m → ∃ m', d'.sidecar crc id = some m' ∧ m.Grows m') ∧
    (∀ s, ((Reassembler.stats crc id).exec d).1 = .ok s →
      ∃ s', ((Reassembler.stats crc id).exec d').1 = .ok s' ∧ s.chunksReceived ≤ s'.chunksReceived) ∧
    ((∀ p ∈ ps, p.fileId ≠ id) →
      d'.get (.manifest id) = d.get (.manifest id) ∧ d'.get (.incoming id) = d.get (.incoming id)) := by
  intro d d'
  have hreg : d.Regular crc := ReceiverStep.regular_run es (ReceiverStep.regular_fresh crc finals sameFs) hes
  have hran : Reassembler.Ran crc ps id d d' := Reassembler.ran_ingestAll id ps hreg hps
  refine ⟨hran.grows, fun s hs => ?_, hran.other⟩
  obtain ⟨m, hm, rfl⟩ := hreg.stats hs
  obtain ⟨m', hm', hg⟩ := hran.grows m hm
  refine ⟨m'.stats, ?_, hg.stats_le⟩
  rw [Disk.exec_stats hm']

/-- A chunk comes to an assembly that has its name, then another name, then a packet of another file. -/
theorem assembly_only_grows_named :
    let d := ReceiverStep.run crc32 [] (Disk.fresh [] true) [.ingest ⟨.manifest, .empty, 1, 0, 2, [0x61]⟩]
    let d' := (Reassembler.ingestAll crc32 [⟨.data, .empty, 1, 0, 2, [1, 2]⟩, ⟨.manifest, .empty, 1, 0, 2, [0x62]⟩,
      ⟨.data, PacketFlags.empty.last, 2, 0, 1, [9]⟩] d).2
    d.sidecar crc32 1 = some ⟨0, 2, 0, ['a'], [0]⟩ ∧ ∃ m', d'.sidecar crc32 1 = some m' ∧ m'.name = ['a'] := by
  intro d d'
  have hm : d.sidecar crc32 1 = some ⟨0, 2, 0, ['a'], [0]⟩ := by decide +kernel
  have hgrows := (assembly_only_grows crc32 [] true [.ingest ⟨.manifest, .empty, 1, 0, 2, [0x61]⟩]
    (by
      intro e he
      rw [List.mem_singleton.1 he]
      exact Packet.received_of (by decide))
    [⟨.data, .empty, 1, 0, 2, [1, 2]⟩, ⟨.manifest, .empty, 1, 0, 2, [0x62]⟩, ⟨.data, PacketFlags.empty.last, 2, 0, 1, [9]⟩]
    (by
      intro p hp
      simp only [List.mem_cons, List.not_mem_nil, or_false] at hp
      rcases hp with rfl | rfl | rfl <;> exact Packet.received_of (by decide))
    1).1 _ hm
  obtain ⟨m', hm', hg⟩ := hgrows
  exact ⟨hm, m', hm', hg.name (by decide)⟩

end Parachuter
