import Parachuter.Plan
import Parachuter.Wire
/-!
# Raced — the planning loop against the receiver's process

The cleaner lists the sidecars once and then opens each of them twice, while the receiver ingests and finalises.  Every
save of a sidecar is one rename, and a packet saves one that is there at most once and a removal takes it whole, so the
moments between the receiver's steps are what the reads are placed at.  Only a cold start saves twice, and the sidecar a
reader could see between, without a name or a mark, is left out.  A sidecar that is gone when `has_name` opens it counts
as one without a name; `missing_ranges` lets it be.
-/
namespace Parachuter

open Blob (Bytes)

/-! ## The receiver's steps -/

/-- The packet came through the socket's buffer. -/
def Packet.Received (crc : Bytes → UInt32) (pkt : Packet) : Prop :=
  ∃ buf : Bytes, Packet.decode crc (buf.take MAX_CHUNK_SIZE) = .ok pkt

theorem Packet.Received.length_lt {crc : Bytes → UInt32} {pkt : Packet} (h : pkt.Received crc) :
    pkt.payload.length < 2 ^ 30 := by
  obtain ⟨buf, hbuf⟩ := h
  exact Nat.lt_trans (payload_lt_of_decode hbuf) (by decide)

theorem Packet.received_of {crc : Bytes → UInt32} {pkt : Packet} (h : (pkt.encode crc).length ≤ MAX_CHUNK_SIZE) :
    pkt.Received crc := by
  have hlen : pkt.payload.length < 2 ^ 32 := by
    rw [length_encode] at h
    unfold MAX_CHUNK_SIZE at h
    omega
  refine ⟨pkt.encode crc, ?_⟩
  rw [List.take_of_length_le h]
  exact decode_encode crc pkt hlen

inductive ReceiverStep
  | ingest (pkt : Packet)
  | finalize (id : FileId)

namespace ReceiverStep

def apply (crc : Bytes → UInt32) (finals : Path) (d : Disk) : ReceiverStep → Disk
  | .ingest pkt  => ((Reassembler.ingest crc pkt).exec d).2
  | .finalize id => ((Reassembler.finalize crc finals id).exec d).2

def run (crc : Bytes → UInt32) (finals : Path) (d : Disk) (es : List ReceiverStep) : Disk := es.foldl (apply crc finals) d

/-- The packet's count is one that `bitmap_len` takes, and its payload read as a name fits a sidecar. -/
def Fits : ReceiverStep → Prop
  | .ingest pkt => pkt.numChunks.toNat ≤ 2 ^ 32 - 8 ∧ (Utf8.encode (Utf8.decodeLossy pkt.payload)).length < 2 ^ 32
  | .finalize _ => True

variable {crc : Bytes → UInt32} {finals : Path}

/-- Every payload the socket's buffer holds fits. -/
theorem fits_of_received {pkt : Packet} (h : pkt.Received crc) (hn : pkt.numChunks.toNat ≤ 2 ^ 32 - 8) :
    (ingest pkt).Fits := by
  have hlen := h.length_lt
  have hle := Utf8.length_encode_decodeLossy_le pkt.payload
  exact ⟨hn, by omega⟩

theorem readable_apply {d : Disk} (h : d.Readable crc) {e : ReceiverStep} (he : e.Fits) :
    (apply crc finals d e).Readable crc := by
  cases e with
  | ingest pkt  => exact (Reassembler.keeps_ingest he.2 d h).1
  | finalize id => exact Reassembler.readable_finalize h finals id

theorem readable_run : ∀ (es : List ReceiverStep) {d : Disk}, d.Readable crc → (∀ e ∈ es, e.Fits) →
    (run crc finals d es).Readable crc
  | [], _, h, _       => h
  | e :: es, _, h, he =>
    readable_run es (readable_apply h (he e List.mem_cons_self)) (fun e' h' => he e' (List.mem_cons_of_mem _ h'))

end ReceiverStep

/-! ## A planning phase among them -/

/-- Where the cleaner's reads fall among the receiver's steps: the listing after `before`, each read after so many steps
of `during`, in the order of the loop. -/
structure PlanningPhase where
  before   : List ReceiverStep
  during   : List ReceiverStep
  nameAt   : FileId → Nat
  gapsAt   : FileId → Nat
  nameGaps : ∀ id, nameAt id ≤ gapsAt id
  gapsNext : ∀ a b : FileId, a.toInt < b.toInt → gapsAt a ≤ nameAt b
  gapsLast : ∀ id, gapsAt id ≤ during.length

namespace PlanningPhase

section

variable (crc : Bytes → UInt32) (finals : Path) (sameFs : Bool) (ph : PlanningPhase)

/-- The disk after `k` of the receiver's steps in the phase. -/
def moment (k : Nat) : Disk := ReceiverStep.run crc finals (Disk.fresh finals sameFs) (ph.before ++ ph.during.take k)

def planned : List Planned :=
  Cleaner.planning crc (ph.moment crc finals sameFs 0) (fun id => ph.moment crc finals sameFs (ph.nameAt id))
    (fun id => ph.moment crc finals sameFs (ph.gapsAt id))

/-- A sidecar of the id goes during the phase. -/
def Finished (id : FileId) : Prop := ∃ j k, j ≤ k ∧ k ≤ ph.during.length ∧
  (ph.moment crc finals sameFs j).get (.manifest id) ≠ none ∧ (ph.moment crc finals sameFs k).get (.manifest id) = none

/-- What is planned was missing at some moment of the phase, and no name is asked of a file finalised in it. -/
structure OnlyMissing : Prop where
  names    : ∀ q ∈ ph.planned crc finals sameFs, q.kind = .resendName → ∃ k ≤ ph.during.length, ∃ m,
    (ph.moment crc finals sameFs k).sidecar crc q.fileId = some m ∧ m.name = []
  ranges   : ∀ q ∈ ph.planned crc finals sameFs, q.kind = .retransmit → ∃ k ≤ ph.during.length, ∃ m,
    (ph.moment crc finals sameFs k).sidecar crc q.fileId = some m ∧ ∀ i, q.range.start.toNat ≤ i →
      i < q.range.start.toNat + q.range.count.toNat → i < m.numChunks.toNat ∧ m.has i = false
  finished : ∀ q ∈ ph.planned crc finals sameFs, q.kind = .resendName → ¬ ph.Finished crc finals sameFs q.fileId

end

variable {crc : Bytes → UInt32} {finals : Path} {sameFs : Bool} {ph : PlanningPhase}

theorem nameAt_le (id : FileId) : ph.nameAt id ≤ ph.during.length := Nat.le_trans (ph.nameGaps id) (ph.gapsLast id)

theorem readable (h : ∀ e ∈ ph.before ++ ph.during, e.Fits) (k : Nat) : (ph.moment crc finals sameFs k).Readable crc := by
  refine ReceiverStep.readable_run _ (fun id buf hbuf => by cases hbuf) (fun e he => h e ?_)
  rcases List.mem_append.1 he with he | he
  · exact List.mem_append_left _ he
  · exact List.mem_append_right _ (List.mem_of_mem_take he)

/-- What a planned request comes from: a read of the name, or a read of the gaps, of a listed id. -/
theorem mem_planned {q : Planned} : q ∈ ph.planned crc finals sameFs ↔
    ∃ id ∈ Reassembler.inFlight (ph.moment crc finals sameFs 0),
      q ∈ Cleaner.planName id ((Reassembler.hasName crc id).exec (ph.moment crc finals sameFs (ph.nameAt id))).1 ∨
      q ∈ Cleaner.planGaps id ((Reassembler.missingRanges crc id).exec (ph.moment crc finals sameFs (ph.gapsAt id))).1 := by
  unfold planned Cleaner.planning
  rw [List.mem_flatMap]
  exact exists_congr (fun id => and_congr_right (fun _ => List.mem_append))

end PlanningPhase

namespace Cleaner

variable {crc : Bytes → UInt32} {d : Disk} {id : FileId} {q : Planned}

/-- **The name is asked for unless a sidecar with one is read.** -/
theorem mem_planName_hasName (h : d.Readable crc) :
    q ∈ planName id ((Reassembler.hasName crc id).exec d).1 ↔
      q = ⟨id, ⟨0, 0⟩, .resendName⟩ ∧ ∀ m, d.sidecar crc id = some m → m.name = [] := by
  by_cases hs : d.get (.manifest id) = none
  · have hno : ∀ m, d.sidecar crc id ≠ some m := by
      intro m hm
      obtain ⟨buf, hbuf, -⟩ := Disk.sidecar_some hm
      rw [hs] at hbuf
      cases hbuf
    unfold Reassembler.hasName
    rw [Calls.exec_bind, Manifest.exec_open_none hs]
    refine ⟨fun hq => ⟨List.mem_singleton.1 hq, fun m hm => absurd hm (hno m)⟩, fun hq => ?_⟩
    rw [hq.1]
    exact List.mem_singleton_self _
  · obtain ⟨m, -, hm⟩ := h.sidecar hs
    rw [exec_hasName hm]
    unfold planName
    cases hname : m.name with
    | nil =>
      refine ⟨fun hq => ⟨List.mem_singleton.1 hq, fun m' hm' => ?_⟩, fun hq => ?_⟩
      · rw [hm] at hm'
        cases hm'
        exact hname
      · rw [hq.1]
        exact List.mem_singleton_self _
    | cons c cs =>
      refine ⟨(fun hq => by cases hq), fun hq => ?_⟩
      have := hq.2 m hm
      rw [hname] at this
      cases this

theorem mem_planGaps_missingRanges (h : d.Readable crc)
    (hq : q ∈ planGaps id ((Reassembler.missingRanges crc id).exec d).1) :
    ∃ m, d.sidecar crc id = some m ∧ ∃ r ∈ m.missingRanges, q = ⟨id, ⟨r.1, r.2⟩, .retransmit⟩ := by
  by_cases hs : d.get (.manifest id) = none
  · unfold Reassembler.missingRanges at hq
    rw [Calls.exec_bind, Manifest.exec_open_none hs] at hq
    cases hq
  · obtain ⟨m, -, hm⟩ := h.sidecar hs
    rw [exec_missingRanges hm] at hq
    obtain ⟨r, hr, rfl⟩ := List.mem_map.1 hq
    exact ⟨m, hm, r, hr, rfl⟩

end Cleaner

/-- **What is planned was missing exactly when no listed file is finalised under the reader**: every listed file that is
finalised during the phase still has its sidecar, with the name in it, when `has_name` reads it. -/
theorem planned_was_missing_iff (crc : Bytes → UInt32) (finals : Path) (sameFs : Bool) (ph : PlanningPhase)
    (hh : ∀ e ∈ ph.before ++ ph.during, e.Fits) :
    ph.OnlyMissing crc finals sameFs ↔ ∀ id ∈ Reassembler.inFlight (ph.moment crc finals sameFs 0),
      ph.Finished crc finals sameFs id →
        ∃ m, (ph.moment crc finals sameFs (ph.nameAt id)).sidecar crc id = some m ∧ m.name ≠ [] := by
  have hread := fun k => @PlanningPhase.readable crc finals sameFs ph hh k
  constructor
  · intro h id hid hfin
    by_contra hno
    have hmem : (⟨id, ⟨0, 0⟩, .resendName⟩ : Planned) ∈ ph.planned crc finals sameFs := by
      refine PlanningPhase.mem_planned.2 ⟨id, hid, .inl ((Cleaner.mem_planName_hasName (hread _)).2 ⟨rfl, fun m hm => ?_⟩)⟩
      by_contra hname
      exact hno ⟨m, hm, hname⟩
    exact h.finished _ hmem rfl hfin
  · intro h
    -- a name asked for was read from a sidecar without one
    have hname : ∀ q ∈ ph.planned crc finals sameFs, q.kind = .resendName →
        q.fileId ∈ Reassembler.inFlight (ph.moment crc finals sameFs 0) ∧
        ∃ m, (ph.moment crc finals sameFs (ph.nameAt q.fileId)).sidecar crc q.fileId = some m ∧ m.name = [] := by
      intro q hq hk
      obtain ⟨id, hid, hq | hq⟩ := PlanningPhase.mem_planned.1 hq
      · obtain ⟨rfl, hall⟩ := (Cleaner.mem_planName_hasName (hread _)).1 hq
        refine ⟨hid, ?_⟩
        by_cases hs : (ph.moment crc finals sameFs (ph.nameAt id)).get (.manifest id) = none
        · obtain ⟨m, hm, -⟩ := h id hid ⟨0, _, Nat.zero_le _, PlanningPhase.nameAt_le id,
            Reassembler.mem_inFlight.1 hid, hs⟩
          exact ⟨m, hm, hall m hm⟩
        · obtain ⟨m, -, hm⟩ := (hread _).sidecar hs
          exact ⟨m, hm, hall m hm⟩
      · obtain ⟨m, -, r, -, rfl⟩ := Cleaner.mem_planGaps_missingRanges (hread _) hq
        cases hk
    refine ⟨fun q hq hk => ?_, fun q hq hk => ?_, fun q hq hk hfin => ?_⟩
    · obtain ⟨-, hm⟩ := hname q hq hk
      exact ⟨_, PlanningPhase.nameAt_le _, hm⟩
    · obtain ⟨id, hid, hq | hq⟩ := PlanningPhase.mem_planned.1 hq
      · obtain ⟨rfl, -⟩ := (Cleaner.mem_planName_hasName (hread _)).1 hq
        cases hk
      · obtain ⟨m, hm, r, hr, rfl⟩ := Cleaner.mem_planGaps_missingRanges (hread _) hq
        exact ⟨_, ph.gapsLast id, m, hm, fun i h1 h2 => (m.mem_missingRanges i).1 ⟨r, hr, h1, h2⟩⟩
    · obtain ⟨hid, m, hm, hempty⟩ := hname q hq hk
      obtain ⟨m', hm', hne⟩ := h _ hid hfin
      rw [hm] at hm'
      cases hm'
      exact hne hempty

/-- A file of two chunks, named and half there when it is listed; its last chunk comes and it is finalised in two steps,
and the cleaner's reads come after `k` of them. -/
def PlanningPhase.sample (k : Fin 3) : PlanningPhase where
  before   := [.ingest (Source.sampleA.chunker.manifestPacket Source.sampleA.name)] ++
    (Source.sampleA.dataPackets [0]).map .ingest
  during   := (Source.sampleA.dataPackets [1]).map .ingest ++ [.finalize 1]
  nameAt _ := k
  gapsAt _ := k
  nameGaps _ := Nat.le_refl k
  gapsNext _ _ _ := Nat.le_refl k
  gapsLast _ := Nat.le_trans (Nat.le_of_lt_succ k.isLt) (by decide +kernel)

theorem PlanningPhase.fits_sample (k : Fin 3) : ∀ e ∈ (sample k).before ++ (sample k).during, e.Fits := by
  have hname : ((Source.sampleA.chunker.manifestPacket Source.sampleA.name).encode crc32).length ≤ MAX_CHUNK_SIZE := by
    decide +kernel
  have hfirst : ∀ p ∈ Source.sampleA.dataPackets [0],
      (p.encode crc32).length ≤ MAX_CHUNK_SIZE ∧ p.numChunks.toNat ≤ 2 ^ 32 - 8 := by decide +kernel
  have hlast : ∀ p ∈ Source.sampleA.dataPackets [1],
      (p.encode crc32).length ≤ MAX_CHUNK_SIZE ∧ p.numChunks.toNat ≤ 2 ^ 32 - 8 := by decide +kernel
  intro e he
  simp only [sample, List.mem_append, List.mem_singleton, List.mem_map] at he
  rcases he with (rfl | ⟨p, hp, rfl⟩) | ⟨p, hp, rfl⟩ | rfl
  · exact ReceiverStep.fits_of_received (Packet.received_of hname) (by decide)
  · obtain ⟨hlen, hn⟩ := hfirst p hp
    exact ReceiverStep.fits_of_received (Packet.received_of hlen) hn
  · obtain ⟨hlen, hn⟩ := hlast p hp
    exact ReceiverStep.fits_of_received (Packet.received_of hlen) hn
  · trivial

theorem PlanningPhase.keys_sample : ∀ k, ((sample k).moment crc32 [] true 0).holding.keys = {.manifest 1, .incoming 1} := by
  decide +kernel

theorem PlanningPhase.inFlight_sample {k : Fin 3} {id : FileId} :
    id ∈ Reassembler.inFlight ((sample k).moment crc32 [] true 0) ↔ id = 1 := by
  rw [Reassembler.mem_inFlight]
  unfold Disk.get
  rw [ne_eq, Finmap.lookup_eq_none, not_not, ← Finmap.mem_keys, keys_sample]
  simp

/-- The sidecar is read before the file is finalised, and its last chunk is asked for. -/
theorem planned_was_missing_read_first : (PlanningPhase.sample 0).OnlyMissing crc32 [] true := by
  refine (planned_was_missing_iff crc32 [] true _ (PlanningPhase.fits_sample 0)).2 (fun id hid _ => ?_)
  rw [PlanningPhase.inFlight_sample.1 hid]
  have hname : (((PlanningPhase.sample 0).moment crc32 [] true 0).sidecar crc32 1).map (·.name) =
      some Source.sampleA.name := by decide +kernel
  obtain ⟨m, hm, hn⟩ := Option.map_eq_some_iff.1 hname
  exact ⟨m, hm, by rw [hn]; exact Source.sampleA.nameNe⟩

/-- **The file is finalised between the listing and the read**: its name is asked for, which every sidecar of it had. -/
theorem name_asked_of_finished : let ph := PlanningPhase.sample 2
    (⟨1, ⟨0, 0⟩, .resendName⟩ : Planned) ∈ ph.planned crc32 [] true ∧
    (∀ k ≤ ph.during.length, ((ph.moment crc32 [] true k).sidecar crc32 1).map (·.name) ≠ some []) ∧
    ¬ ph.OnlyMissing crc32 [] true := by
  intro ph
  have hlen : ph.during.length = 2 := by decide +kernel
  have hgone : (ph.moment crc32 [] true (ph.nameAt 1)).get (.manifest 1) = none := by decide +kernel
  have hnames : ∀ k ≤ 2, ((ph.moment crc32 [] true k).sidecar crc32 1).map (·.name) ≠ some [] := by decide +kernel
  have hmem : (⟨1, ⟨0, 0⟩, .resendName⟩ : Planned) ∈ ph.planned crc32 [] true := by
    refine PlanningPhase.mem_planned.2 ⟨1, PlanningPhase.inFlight_sample.2 rfl, .inl ?_⟩
    refine (Cleaner.mem_planName_hasName (PlanningPhase.readable (PlanningPhase.fits_sample 2) _)).2 ⟨rfl, ?_⟩
    intro m hm
    obtain ⟨buf, hbuf, -⟩ := Disk.sidecar_some hm
    rw [hgone] at hbuf
    cases hbuf
  refine ⟨hmem, fun k hk => hnames k (by rw [← hlen]; exact hk), fun h => ?_⟩
  obtain ⟨k, hk, m, hm, hempty⟩ := h.names _ hmem rfl
  refine hnames k (by rw [← hlen]; exact hk) ?_
  have hm' : (ph.moment crc32 [] true k).sidecar crc32 1 = some m := hm
  rw [hm', Option.map_some, hempty]

end Parachuter
