import Parachuter.Ground
import Parachuter.Plan
import Parachuter.Transmit
import Parachuter.Vanished
/-!
# Recut — repair after the chunk size was changed

The sender answers a request at the chunk size in force, the ground asks in the chunks its sidecar counts.  Whatever is
requested of a file, all that goes out carries the chunk count of the size in force (`Recut.drain`); when that is not the
sidecar's, all of it is turned away, and when it is, the first packet is taken.
-/
namespace Parachuter

open Blob (Bytes)
open Calls (Res)

/-! ## What the ground answers -/

/-- What the receive loop's `ingest` answers to a datagram, if it decodes. -/
def ingestAnswer (crc : Bytes → UInt32) (datagram : Bytes) (d : Disk) : Option (Res Error IngestOutcome) :=
  match Packet.decode crc (datagram.take MAX_CHUNK_SIZE) with
  | .ok pkt  => some ((Reassembler.ingest crc pkt).exec d).1
  | .error _ => none

/-- The answers along a run of the receive loop. -/
def ingestAnswers (crc : Bytes → UInt32) (finals : Path) : List Bytes → Disk → List (Option (Res Error IngestOutcome))
  | [], _      => []
  | b :: bs, d => ingestAnswer crc b d :: ingestAnswers crc finals bs ((receive crc finals b).exec d).2

/-- Some datagram of the sequence is taken. -/
def Progresses (crc : Bytes → UInt32) (finals : Path) (bs : List Bytes) (d : Disk) : Prop :=
  ∃ o, some o ∈ ingestAnswers crc finals bs d ∧ Reassembler.Taken o

/-- A packet of an assembly that is not of its chunk count. -/
structure Foreign (crc : Bytes → UInt32) (d : Disk) (pkt : Packet) : Prop where
  ptype   : pkt.ptype ≠ .heartbeat
  payload : pkt.payload.length < 2 ^ 32
  count   : ∃ m, d.sidecar crc pkt.fileId = some m ∧ m.numChunks ≠ pkt.numChunks

theorem Foreign.ingest {crc : Bytes → UInt32} {d : Disk} {pkt : Packet} (h : Foreign crc d pkt) :
    (Reassembler.ingest crc pkt).exec d = (.ok .mismatched, d) := by
  obtain ⟨m, hm, hne⟩ := h.count
  obtain ⟨buf, hbuf, hparse⟩ := Disk.sidecar_some hm
  exact Reassembler.ingest_mismatched hbuf hparse hne h.ptype

/-- **Packets of another chunk count make no progress.** -/
theorem not_progresses {crc : Bytes → UInt32} (finals : Path) {d : Disk} : ∀ {bs : List Bytes},
    (∀ b ∈ bs, ∃ pkt, b = pkt.encode crc ∧ Foreign crc d pkt) → ¬ Progresses crc finals bs d
  | [], _, ⟨_, ho, _⟩           => by cases ho
  | b :: bs, h, ⟨o, ho, htaken⟩ => by
    obtain ⟨pkt, rfl, hf⟩ := h b List.mem_cons_self
    have hdisk : ((receive crc finals (pkt.encode crc)).exec d).2 = d := by
      rw [exec_receive_encode crc finals hf.payload]
      split
      · rw [receivePacket_ok hf.ingest, if_neg (by simp)]
      · rfl
    rcases List.mem_cons.1 ho with ho | ho
    · unfold ingestAnswer at ho
      rw [decode_take_encode crc pkt hf.payload MAX_CHUNK_SIZE (by decide)] at ho
      by_cases hfit : (pkt.encode crc).length ≤ MAX_CHUNK_SIZE
      · rw [if_pos hfit] at ho
        dsimp only at ho
        rw [hf.ingest] at ho
        cases ho
        rcases htaken with h | h <;> cases h
      · rw [if_neg hfit] at ho
        cases ho
    · rw [hdisk] at ho
      exact not_progresses finals (fun c hc => h c (List.mem_cons_of_mem _ hc)) ⟨o, ho, htaken⟩

/-- **One packet that is taken is progress.** -/
theorem progresses_of_taken {crc : Bytes → UInt32} {finals : Path} {d : Disk} {pkt : Packet} {bs : List Bytes}
    (hlen : (pkt.encode crc).length ≤ MAX_CHUNK_SIZE) (h : Reassembler.Taken ((Reassembler.ingest crc pkt).exec d).1) :
    Progresses crc finals (pkt.encode crc :: bs) d := by
  have hpay : pkt.payload.length < 2 ^ 32 := by
    rw [length_encode] at hlen
    simp only [HEADER_LEN, MAX_CHUNK_SIZE] at hlen
    omega
  refine ⟨_, List.mem_cons.2 (.inl ?_), h⟩
  unfold ingestAnswer
  rw [decode_take_encode crc pkt hpay MAX_CHUNK_SIZE (by decide), if_pos hlen]

/-! ## What the sender sends -/

/-- A sender with one file, whatever chunk size it was sent at before: all that is queued is of this file. -/
structure Source.Alone (S : Source) (payload : Payload) (c : Nat) (rt : SenderRuntime) : Prop extends
    S.Registered payload rt where
  state : rt.state ≠ .paused
  size  : rt.currentChunkSize = c
  items : ∀ item ∈ rt.queue.items, item.fileId = S.fileId ∧ ∀ id name, item = .manifest id name → name = S.name

/-- The file's chunker at chunk size `c`. -/
def Source.recut (S : Source) (c : Nat) : Chunker :=
  ⟨S.bytes, S.fileId, c, c - HEADER_LEN, chunksForSize S.bytes.length (c - HEADER_LEN)⟩

/-- A packet of the file, cut at chunk size `c`. -/
inductive Source.Cut (S : Source) (c : Nat) : Packet → Prop
  | manifest : Cut S c ((S.recut c).manifestPacket S.name)
  | chunk (i : UInt32) (p : Packet) : (S.recut c).Carries i p → Cut S c p

namespace Source.Alone

variable {S : Source} {payload : Payload} {c : Nat} {rt : SenderRuntime}

theorem open_eq (h : S.Alone payload c rt) (hc : MIN_CHUNK_SIZE ≤ c ∧ c ≤ MAX_CHUNK_SIZE) :
    Chunker.open payload.files S.name S.fileId rt.currentChunkSize = .ok (S.recut c) := by
  rw [h.size]
  exact Chunker.open_some hc h.file S.fileId

theorem of_queue (h : S.Alone payload c rt) {rt' : SenderRuntime} (hstate : rt'.state = rt.state)
    (hsize : rt'.currentChunkSize = rt.currentChunkSize) (hledger : rt'.ledger = rt.ledger)
    (hitems : ∀ item ∈ rt'.queue.items, item.fileId = S.fileId ∧ ∀ id name, item = .manifest id name → name = S.name) :
    S.Alone payload c rt' :=
  ⟨⟨by rw [hledger]; exact h.row, h.file⟩, by rw [hstate]; exact h.state, hsize.trans h.size, hitems⟩

theorem sendRange (h : S.Alone payload c rt) (hc : MIN_CHUNK_SIZE ≤ c ∧ c ≤ MAX_CHUNK_SIZE) {crc : Bytes → UInt32}
    {packet : Chunker → UInt32 → Except Error Packet} {mk : RequestedRange → WorkItem} {range : RequestedRange}
    (hp : ∀ ch i p, packet ch i = .ok p → ch.Carries i p)
    (hmk : ∀ r, (mk r).fileId = S.fileId ∧ ∀ id name, mk r = .manifest id name → name = S.name) :
    S.Alone payload c (SenderRuntime.sendRange crc payload packet mk rt S.fileId range).rt ∧
      ∀ b ∈ (SenderRuntime.sendRange crc payload packet mk rt S.fileId range).datagram,
        ∃ pkt, b = pkt.encode crc ∧ S.Cut c pkt := by
  obtain ⟨rec, hrec, hname, -⟩ := h.row
  have hopen := h.open_eq hc
  rw [← hname] at hopen
  unfold SenderRuntime.sendRange
  rw [hrec]
  dsimp only
  rw [hopen]
  dsimp only
  cases hpk : packet (S.recut c) range.start with
  | error e => exact ⟨h, fun b hb => by cases hb⟩
  | ok pkt =>
    have hemit : S.Alone payload c (rt.emit payload (pkt.encode crc)).rt := by
      obtain ⟨rl, heq⟩ := SenderRuntime.emit_rt rt payload (pkt.encode crc)
      rw [heq]
      exact h.of_queue rfl rfl rfl h.items
    have hdata : ∀ b ∈ (rt.emit payload (pkt.encode crc)).datagram, ∃ pkt, b = pkt.encode crc ∧ S.Cut c pkt := by
      intro b hb
      exact ⟨pkt, SenderRuntime.emit_datagram hb, .chunk range.start pkt (hp _ _ _ hpk)⟩
    dsimp only
    split
    · exact ⟨hemit, hdata⟩
    · split
      · refine ⟨hemit.of_queue rfl rfl rfl (fun item hi => ?_), hdata⟩
        rcases List.mem_cons.1 hi with rfl | hi
        · exact hmk range.rest
        · exact hemit.items item hi
      · exact ⟨hemit, hdata⟩

/-- **One `send_next`**: what goes out is of the file, at the chunk size in force. -/
theorem sendNext (h : S.Alone payload c rt) (hc : MIN_CHUNK_SIZE ≤ c ∧ c ≤ MAX_CHUNK_SIZE) (crc : Bytes → UInt32) :
    S.Alone payload c (rt.sendNext crc payload).rt ∧
      ∀ b ∈ (rt.sendNext crc payload).datagram, ∃ pkt, b = pkt.encode crc ∧ S.Cut c pkt := by
  rcases SenderRuntime.sendNext_cases crc payload rt with heq | ⟨item, items, -, hq, heq⟩
  · rw [heq]
    exact ⟨h, fun b hb => by cases hb⟩
  · have hrest : S.Alone payload c (rt.taking ⟨items, rt.queue.revision + 1⟩) :=
      h.of_queue rfl rfl rfl (fun i hi => h.items i (by rw [hq]; exact List.mem_cons_of_mem _ hi))
    obtain ⟨hid, hname⟩ := h.items item (by rw [hq]; exact List.mem_cons_self)
    rw [heq]
    cases item with
    | manifest id name =>
      obtain rfl : id = S.fileId := hid
      obtain rfl := hname S.fileId name rfl
      simp only [SenderRuntime.sendItem, SenderRuntime.sendManifest]
      rw [hrest.open_eq hc]
      dsimp only
      refine ⟨?_, fun b hb => ⟨_, SenderRuntime.emit_datagram hb, .manifest⟩⟩
      obtain ⟨rl, hrl⟩ := SenderRuntime.emit_rt (rt.taking ⟨items, rt.queue.revision + 1⟩) payload _
      rw [hrl]
      exact hrest.of_queue rfl rfl rfl hrest.items
    | data id range =>
      obtain rfl : id = S.fileId := hid
      exact hrest.sendRange hc (fun _ _ _ => Chunker.carries_dataPacket) (fun r => ⟨rfl, fun _ _ hr => by cases hr⟩)
    | retransmit id range =>
      obtain rfl : id = S.fileId := hid
      exact hrest.sendRange hc (fun _ _ _ => Chunker.carries_retransmitPacket) (fun r => ⟨rfl, fun _ _ hr => by cases hr⟩)

/-- **All that is sent until the queue is empty**, or the sender gives up. -/
theorem drain (hc : MIN_CHUNK_SIZE ≤ c ∧ c ≤ MAX_CHUNK_SIZE) (crc : Bytes → UInt32) : ∀ (fuel : Nat) {rt : SenderRuntime},
    S.Alone payload c rt → ∀ b ∈ (rt.drain crc payload fuel).sent, ∃ pkt, b = pkt.encode crc ∧ S.Cut c pkt
  | 0, _, _, b, hb        => by cases hb
  | fuel + 1, rt, h, b, hb => by
    obtain ⟨hnext, hsent⟩ := h.sendNext hc crc
    unfold SenderRuntime.drain at hb
    dsimp only at hb
    split at hb
    · exact hsent b (Option.mem_toList.1 hb)
    · rcases List.mem_append.1 hb with hb | hb
      · exact hsent b (Option.mem_toList.1 hb)
      · exact drain hc crc fuel hnext b hb

end Source.Alone

/-! ## What is requested -/

/-- A request that repairs an assembly: one of its missing ranges as the cleaner asks for it, the name, or the file
whole. -/
def Manifest.Repairs (m : Manifest) (id : FileId) : SenderRequest → Prop
  | .resendName fileId                      => fileId = id
  | .enqueue fileId start count interrupt =>
    fileId = id ∧ (start = -1 ∨ interrupt = true ∧ ∃ r ∈ m.missingRanges, start = r.1.toInt32 ∧ count = r.2)

/-- The requests made one after another. -/
def SenderRuntime.handleAll (utc : DateTime) (rt : SenderRuntime) (reqs : List SenderRequest) : SenderRuntime :=
  reqs.foldl (fun rt req => (rt.handle utc req).2) rt

/-- A queue whose first packet is one the assembly lacks: the name, or a chunk that starts a missing range. -/
def Source.Opens (S : Source) (m : Manifest) (q : PacketQueue) : Prop :=
  ∃ item items, q.items = item :: items ∧ (item = .manifest S.fileId S.name ∨
    ∃ r ∈ m.missingRanges, ∃ count, item = .retransmit S.fileId ⟨r.1, count⟩)

namespace Source.Alone

variable {S : Source} {payload : Payload} {c : Nat} {rt : SenderRuntime} {m : Manifest}

theorem pushFullFile (h : S.Alone payload c rt) (total : UInt32) (interrupt : Bool) (utc : DateTime) :
    S.Alone payload c (rt.pushFullFile S.fileId S.name total interrupt utc) ∧
      (rt.queue.items = [] ∨ S.Opens m rt.queue → S.Opens m (rt.pushFullFile S.fileId S.name total interrupt utc).queue) := by
  have hnew : ∀ item ∈ [WorkItem.manifest S.fileId S.name, .data S.fileId ⟨0, total⟩], item.fileId = S.fileId ∧
      ∀ id name, item = .manifest id name → name = S.name := by
    intro item hi
    rcases List.mem_cons.1 hi with rfl | hi
    · exact ⟨rfl, fun _ _ hm => by cases hm; rfl⟩
    · rw [List.mem_singleton.1 hi]
      exact ⟨rfl, fun _ _ hm => by cases hm⟩
  obtain ⟨rec, hrec, hname, hlen⟩ := h.row
  obtain ⟨rec', hrec', hname', hlen'⟩ := Ledger.get_markQueued hrec S.fileId utc
  have hreg : S.Registered payload (rt.pushFullFile S.fileId S.name total interrupt utc) :=
    ⟨⟨rec', hrec', hname'.trans hname, by rw [hlen']; exact hlen⟩, h.file⟩
  cases interrupt with
  | true =>
    refine ⟨⟨hreg, h.state, h.size, fun item hi => ?_⟩, fun _ => ⟨_, _, rfl, .inl rfl⟩⟩
    have hi' : item ∈ [WorkItem.manifest S.fileId S.name, .data S.fileId ⟨0, total⟩] ++ rt.queue.items := hi
    rcases List.mem_append.1 hi' with hi' | hi'
    · exact hnew item hi'
    · exact h.items item hi'
  | false =>
    have hq : (rt.pushFullFile S.fileId S.name total false utc).queue.items =
        rt.queue.items ++ [.manifest S.fileId S.name, .data S.fileId ⟨0, total⟩] := by
      show (rt.queue.items ++ [_]) ++ [_] = _
      rw [List.append_assoc]
      rfl
    refine ⟨⟨hreg, h.state, h.size, fun item hi => ?_⟩, ?_⟩
    · rw [hq] at hi
      rcases List.mem_append.1 hi with hi | hi
      · exact h.items item hi
      · exact hnew item hi
    · rintro (hnil | ⟨item, items, hitems, hhead⟩)
      · rw [hnil] at hq
        exact ⟨_, _, hq, .inl rfl⟩
      · rw [hitems] at hq
        exact ⟨_, _, hq, hhead⟩

theorem pushFront (h : S.Alone payload c rt) {item : WorkItem} (hi : item.fileId = S.fileId ∧
    ∀ id name, item = .manifest id name → name = S.name) :
    S.Alone payload c { rt with queue := rt.queue.pushFront item } := by
  refine h.of_queue rfl rfl rfl (fun i hm => ?_)
  rcases List.mem_cons.1 hm with rfl | hm
  · exact hi
  · exact h.items i hm

/-- **One request**: the queue stays of the file, and when the counts agree the first packet is one that is lacking. -/
theorem handle (h : S.Alone payload c rt) {req : SenderRequest} (hreq : m.Repairs S.fileId req) (utc : DateTime) :
    S.Alone payload c (rt.handle utc req).2 ∧
      ((S.recut c).numChunks = m.numChunks → rt.queue.items = [] ∨ S.Opens m rt.queue →
        S.Opens m (rt.handle utc req).2.queue) := by
  obtain ⟨rec, hrec, hname, hlen⟩ := h.row
  have hrid := (Ledger.mem_of_get hrec).2
  cases req with
  | resendName fileId =>
    obtain rfl : fileId = S.fileId := hreq
    have heq : (rt.handle utc (.resendName S.fileId)).2 =
        { rt with queue := rt.queue.pushFront (.manifest S.fileId S.name) } := by
      rw [SenderRuntime.handle_resendName]
      unfold SenderRuntime.resendName
      rw [hrec]
      dsimp only
      rw [hrid, hname]
    rw [heq]
    exact ⟨h.pushFront ⟨rfl, fun _ _ hm => by cases hm; rfl⟩, fun _ _ => ⟨_, _, rfl, .inl rfl⟩⟩
  | enqueue fileId start count interrupt =>
    obtain ⟨rfl, hstart⟩ := hreq
    have htotal : chunksForSize rec.fileSize.toNat (rt.currentChunkSize - HEADER_LEN) = (S.recut c).numChunks := by
      rw [hlen, h.size]
      rfl
    rw [SenderRuntime.handle_enqueue]
    unfold SenderRuntime.enqueue
    rw [hrec]
    dsimp only
    rw [hrid, hname, htotal]
    by_cases hneg : start < 0
    · rw [if_pos hneg]
      obtain ⟨h1, h2⟩ := @pushFullFile S payload c rt m h (S.recut c).numChunks interrupt utc
      exact ⟨h1, fun _ => h2⟩
    rw [if_neg hneg]
    by_cases hout : (S.recut c).numChunks ≤ start.toUInt32
    · rw [if_pos hout]
      refine ⟨h, fun hcount _ => ?_⟩
      -- a range that is missing starts below the count
      exfalso
      rcases hstart with rfl | ⟨-, r, hr, rfl, -⟩
      · exact hneg (by decide)
      · have hb := Manifest.missingRanges_bounds hr
        rw [hcount, UInt32.le_iff_toNat_le] at hout
        have : r.1.toInt32.toUInt32.toNat = r.1.toNat := rfl
        omega
    rw [if_neg hout]
    rcases hstart with rfl | ⟨rfl, r, hr, rfl, -⟩
    · exact absurd (by decide) hneg
    · rw [if_pos rfl]
      exact ⟨h.pushFront ⟨rfl, fun _ _ hm => by cases hm⟩, fun _ _ => ⟨_, _, rfl, .inr ⟨r, hr, _, rfl⟩⟩⟩

/-- **All requests.** -/
theorem handleAll (utc : DateTime) : ∀ (reqs : List SenderRequest) {rt : SenderRuntime}, S.Alone payload c rt →
    (∀ req ∈ reqs, m.Repairs S.fileId req) → S.Alone payload c (rt.handleAll utc reqs) ∧
      ((S.recut c).numChunks = m.numChunks → S.Opens m rt.queue ∨ (reqs ≠ [] ∧ rt.queue.items = []) →
        S.Opens m (rt.handleAll utc reqs).queue)
  | [], rt, h, _            => ⟨h, fun _ ho => ho.resolve_right (fun hn => hn.1 rfl)⟩
  | req :: reqs, rt, h, hreq => by
    obtain ⟨h1, h2⟩ := h.handle (hreq req List.mem_cons_self) utc
    obtain ⟨h3, h4⟩ := handleAll utc reqs h1 (fun r hr => hreq r (List.mem_cons_of_mem _ hr))
    exact ⟨h3, fun hcount ho => h4 hcount (.inl (h2 hcount (ho.symm.imp_left And.right)))⟩

end Source.Alone

/-! ## The round -/

section

variable {crc : Bytes → UInt32} {S : Source} {payload : Payload} {c : Nat} {rt : SenderRuntime} {m : Manifest} {d : Disk}
  {a : Progress} (hm : d.get (.manifest S.fileId) = some (m.bytes crc)) (hs : S.Sound m (d.get (.incoming S.fileId)) a)
  (hcount : (S.recut c).numChunks = m.numChunks)

include hm hs hcount

theorem Source.Sound.taken_manifest :
    Reassembler.Taken ((Reassembler.ingest crc ((S.recut c).manifestPacket S.name)).exec d).1 :=
  Reassembler.taken_ingestManifest hm (hs.parse crc) hcount.symm hs.bitmap (by rw [hs.count]; exact S.count_le)

/-- The first chunk of a missing range, at the sidecar's count. -/
theorem Source.Sound.taken_chunk (hc : MIN_CHUNK_SIZE ≤ c ∧ c ≤ MAX_CHUNK_SIZE) {r : UInt32 × UInt32}
    (hr : r ∈ m.missingRanges) {pkt : Packet} (hp : (S.recut c).Carries r.1 pkt) :
    Reassembler.Taken ((Reassembler.ingest crc pkt).exec d).1 := by
  obtain ⟨hpos, hend⟩ := Manifest.missingRanges_bounds hr
  have hclear := ((m.mem_missingRanges r.1.toNat).1 ⟨r, hr, Nat.le_refl _, by omega⟩).2
  have hfirst : m.chunkPayloadSize = 0 → (pkt.flags.isLast && decide (1 < pkt.numChunks)) = false := by
    intro hz
    rw [hp.isLast, hp.numChunks, hcount, Bool.and_eq_false_iff, decide_eq_false_iff_not, decide_eq_false_iff_not]
    by_cases h1 : 1 < m.numChunks
    · refine .inl (fun hlast => ?_)
      have h1' : 1 < S.count := by
        rw [← hs.count]
        exact UInt32.lt_iff_toNat_lt.1 h1
      -- the payload size of several chunks is 0 only while there are none, and then the range starts at chunk 0
      have hgot : a.got = ∅ := by
        by_contra hne
        have hsize := hs.size
        rw [hz, if_neg hne] at hsize
        exact Nat.ne_of_gt (S.stride_pos (by omega)) hsize.symm
      have hnone : ∀ i, i < m.numChunks.toNat → m.has i = false := by
        intro i _
        rw [Bool.eq_false_iff, Ne, hs.has, hgot]
        exact Finset.notMem_empty i
      rw [Manifest.missingRanges_of_clear (by rw [hs.count]; omega) hnone, List.mem_singleton] at hr
      rw [hr, ← UInt32.toNat_inj, UInt32.toNat_sub_of_le _ _ (UInt32.le_of_lt h1), hs.count] at hlast
      have hzero : 0 = S.count - 1 := hlast
      omega
    · exact .inr h1
  have hlen : pkt.payload.length < 2 ^ 30 := by
    have hle := hp.payload
    have hpay : (S.recut c).payloadSize = c - HEADER_LEN := rfl
    simp only [MAX_CHUNK_SIZE] at hc
    omega
  have hstride : m.chunkPayloadSize.toNat < 2 ^ 30 := by
    have hle := S.stride_le
    rw [hs.size]
    split
    · decide
    · omega
  have htaken : Reassembler.Taken ((Reassembler.ingestChunk crc pkt).exec d).1 := by
    refine Reassembler.taken_ingestChunk (m := m) ?_ (hs.parse crc) ?_ hs.bitmap ?_ ?_ hfirst hlen hstride
    · rw [hp.fileId]
      exact hm
    · rw [hp.numChunks, hcount]
    · rw [hs.count]
      exact S.count_le
    · rw [hp.chunkId]
      exact hclear
  unfold Reassembler.ingest
  rcases hp.isChunk with ht | ht <;> rw [ht] <;> exact htaken

/-- **The first packet sent is taken**, if the limiter lets it go. -/
theorem Source.Alone.sendNext_taken (h : S.Alone payload c rt) (hc : MIN_CHUNK_SIZE ≤ c ∧ c ≤ MAX_CHUNK_SIZE)
    (hnet : payload.net.Takes) (hpath : payload.PathsShort) (ho : S.Opens m rt.queue) :
    (∃ pkt rt', rt.sendNext crc payload = ⟨.ok true, rt', some (pkt.encode crc)⟩ ∧
      (pkt.encode crc).length ≤ MAX_CHUNK_SIZE ∧ Reassembler.Taken ((Reassembler.ingest crc pkt).exec d).1) ∨
    ∃ rt', rt.sendNext crc payload = ⟨.error .blocked, rt', none⟩ := by
  obtain ⟨item, items, hq, hitem⟩ := ho
  have hrest : S.Alone payload c (rt.taking ⟨items, rt.queue.revision + 1⟩) :=
    h.of_queue rfl rfl rfl (fun i hi => h.items i (by rw [hq]; exact List.mem_cons_of_mem _ hi))
  have hrate := rt.paced_taking ⟨items, rt.queue.revision + 1⟩
  have hopen := hrest.open_eq hc
  rw [SenderRuntime.sendNext_cons crc payload h.state hq]
  rcases hitem with rfl | ⟨r, hr, count, rfl⟩
  · have hsend := @SenderRuntime.sendManifest_emit _ crc payload _ _ _ hopen
    by_cases hfit : (((S.recut c).manifestPacket S.name).encode crc).length ≤
        (rt.taking ⟨items, rt.queue.revision + 1⟩).secondsWorth
    · obtain ⟨rl, heq⟩ := SenderRuntime.emit_taken hnet hrate hfit
      refine .inl ⟨_, _, hsend.trans heq, ?_, hs.taken_manifest hm hcount⟩
      have hshort := hpath S.name S.bytes h.file
      have hpay : ((S.recut c).manifestPacket S.name).payload = Utf8.encode S.name := rfl
      rw [length_encode, hpay]
      simp only [HEADER_LEN, MAX_CHUNK_SIZE, PATH_MAX] at *
      omega
    · exact .inr ⟨_, hsend.trans (SenderRuntime.emit_blocked hrate hfit)⟩
  · obtain ⟨rec, hrec, hname, -⟩ := hrest.row
    obtain ⟨hpos, hend⟩ := Manifest.missingRanges_bounds hr
    have hlt : r.1 < (S.recut c).numChunks := by
      rw [hcount, UInt32.lt_iff_toNat_lt]
      omega
    obtain ⟨pkt, hpk⟩ := Chunker.retransmitPacket_of_lt hlt
    have hcar := Chunker.carries_retransmitPacket hpk
    rw [← hname] at hopen
    by_cases hfit : (pkt.encode crc).length ≤ (rt.taking ⟨items, rt.queue.revision + 1⟩).secondsWorth
    · obtain ⟨rl, heq⟩ := @SenderRuntime.sendRange_taken _ crc payload Chunker.retransmitPacket (.retransmit S.fileId)
        S.fileId ⟨r.1, count⟩ rec hrec _ hopen pkt hpk hnet hrate hfit
      refine .inl ⟨pkt, _, heq, ?_, hs.taken_chunk hm hcount hc hr hcar⟩
      have hle := hcar.payload
      have hpay : (S.recut c).payloadSize = c - HEADER_LEN := rfl
      rw [length_encode]
      simp only [HEADER_LEN, MAX_CHUNK_SIZE, MIN_CHUNK_SIZE] at *
      omega
    · exact .inr ⟨_, @SenderRuntime.sendRange_blocked _ crc payload Chunker.retransmitPacket (.retransmit S.fileId) S.fileId
        ⟨r.1, count⟩ rec hrec _ hopen pkt hpk hrate hfit⟩

end

/-- **A repair round after changes of the chunk size makes progress exactly when the file is still cut into as many
chunks**, provided that something of what is requested goes out at all. -/
theorem recut_progresses_iff (crc : Bytes → UInt32) (finals : Path) (Ss : List Source)
    (hid : ∀ S ∈ Ss, ∀ T ∈ Ss, S.fileId = T.fileId → S = T)
    (hapart : ∀ S ∈ Ss, ∀ T ∈ Ss, S.fileId ≠ T.fileId → ¬ S.ground finals <+: T.ground finals)
    (d : Disk) (hd : Reached crc finals Ss d) (S : Source) (hS : S ∈ Ss) (m : Manifest) (hm : d.sidecar crc S.fileId = some m)
    (payload : Payload) (hnet : payload.net.Takes) (hpath : payload.PathsShort)
    (cfg : LiveConfig) (ledger : Ledger) (now : Int) (nowSecs : ℚ) (ops : List SenderOp) (overrides : List LinkOverride)
    (rt : SenderRuntime)
    (hrt : rt = SenderOp.run crc (.new cfg ledger now nowSecs) (ops ++ overrides.map SenderOp.applyOverride))
    (hstate : rt.state ≠ .paused) (hqueue : rt.queue.items = []) (hreg : S.Registered payload rt)
    (reqs : List SenderRequest) (hne : reqs ≠ []) (hreqs : ∀ req ∈ reqs, m.Repairs S.fileId req)
    (utc : DateTime) (fuel : Nat) (hsent : ((rt.handleAll utc reqs).drain crc payload fuel).sent ≠ []) :
    Progresses crc finals ((rt.handleAll utc reqs).drain crc payload fuel).sent d ↔
      chunksForSize S.bytes.length (rt.currentChunkSize - HEADER_LEN) = S.chunker.numChunks := by
  have hwf : rt.Wf := by
    rw [hrt]
    exact SenderRuntime.Wf.run crc _ (.new cfg ledger now nowSecs)
  have hc := hwf.chunkSize_ok
  obtain ⟨T, hT, heq, hget, a, hsound⟩ := (Ground.of_reached (.of_distinct hid hapart) hd).sound hm
  rw [hid T hT S hS heq] at hsound
  have halone : S.Alone payload rt.currentChunkSize rt :=
    ⟨hreg, hstate, rfl, fun item hi => by rw [hqueue] at hi; cases hi⟩
  obtain ⟨halone', hopens⟩ := @Source.Alone.handleAll S payload _ m utc reqs rt halone hreqs
  rw [← hsound.numChunks]
  constructor
  · intro hprog
    by_contra hcount
    refine not_progresses finals (fun b hb => ?_) hprog
    obtain ⟨pkt, hb, hcut⟩ := halone'.drain hc crc fuel b hb
    refine ⟨pkt, hb, ?_⟩
    cases hcut with
    | manifest => exact ⟨(fun h => by cases h), S.nameFits, m, hm, fun h => hcount h.symm⟩
    | chunk i p hp =>
      refine ⟨?_, ?_, m, by rw [hp.fileId]; exact hm, fun h => hcount (by rw [h, hp.numChunks]; rfl)⟩
      · rcases hp.isChunk with ht | ht <;> (rw [ht]; exact fun h => by cases h)
      · have hle := hp.payload
        have hpay : (S.recut rt.currentChunkSize).payloadSize = rt.currentChunkSize - HEADER_LEN := rfl
        simp only [MAX_CHUNK_SIZE] at hc
        omega
  · intro hcount
    have ho := hopens hcount (.inr ⟨hne, hqueue⟩)
    cases fuel with
    | zero => exact absurd rfl hsent
    | succ fuel =>
      unfold SenderRuntime.drain at hsent ⊢
      rcases halone'.sendNext_taken hget hsound hcount hc hnet hpath ho with ⟨pkt, rt', heq, hlen, htaken⟩ | ⟨rt', heq⟩
      · rw [heq]
        exact progresses_of_taken hlen htaken
      · rw [heq] at hsent
        exact absurd rfl hsent

set_option maxRecDepth 4096 in
/-- Changed to 96 and back to 64: the missing chunk is taken. -/
theorem recut_progresses_back :
    let S := Forty.source 64 (by decide)
    let d := receiveAll crc32 [] ((S.dataPackets [0]).map (Packet.encode crc32)) (Disk.fresh [] true)
    let rt := SenderOp.run crc32 Forty.start [Forty.setChunkSize 64, Forty.submit, .flush, Forty.setChunkSize 96,
      Forty.setChunkSize 64]
    Progresses crc32 [] ((rt.handleAll 0 [.enqueue 1 1 1 true]).drain crc32 (.ideal Forty.files) 1).sent d := by
  intro S d rt
  have hd : Reached crc32 [] [S] d := by
    refine ⟨true, _, fun b hb => ?_, rfl⟩
    obtain ⟨p, hp, rfl⟩ := List.mem_map.1 hb
    exact ⟨S, List.mem_singleton_self S, p, Source.sends_dataPackets hp, rfl⟩
  have hmissing : (d.sidecar crc32 1).map Manifest.missingRanges = some [(1, 1)] := by decide +kernel
  obtain ⟨m, hm, hranges⟩ := Option.map_eq_some_iff.1 hmissing
  refine (recut_progresses_iff crc32 [] [S]
    (fun A hA B hB _ => (List.mem_singleton.1 hA).trans (List.mem_singleton.1 hB).symm) (S.streams_single []).apart d hd S
    (List.mem_singleton_self S) m hm (.ideal Forty.files) (fun _ _ _ => rfl) Forty.pathsShort .default .empty
    0 0 [Forty.setChunkSize 64, Forty.submit, .flush] [⟨none, some 96, none, none, none⟩, ⟨none, some 64, none, none, none⟩]
    rt rfl (by decide +kernel) (by decide +kernel) ⟨⟨_, rfl, rfl, by decide +kernel⟩, rfl⟩ _ (by simp) (fun req hreq => ?_) 0 1
    (by decide +kernel)).2 (by decide +kernel)
  rw [List.mem_singleton.1 hreq]
  exact ⟨rfl, .inr ⟨rfl, (1, 1), by rw [hranges]; exact List.mem_singleton_self _, by decide, rfl⟩⟩

set_option maxRecDepth 4096 in
/-- **The name came at chunk size 96, the file is then asked for at 64**: the request for its one chunk is accepted, as is
one for the whole file, and every packet sent is turned away. -/
theorem recut_all_mismatched :
    let S := Forty.source 96 (by decide)
    let d := receiveAll crc32 [] [(S.chunker.manifestPacket S.name).encode crc32] (Disk.fresh [] true)
    let rt := SenderOp.run crc32 Forty.start [Forty.setChunkSize 96, Forty.submit, .flush, Forty.setChunkSize 64]
    let answers := fun rt => ingestAnswers crc32 [] (SenderRuntime.drain crc32 (.ideal Forty.files) 4 rt).sent d
    (d.sidecar crc32 1).map Manifest.missingRanges = some [(0, 1)] ∧
    (rt.handle 0 (.enqueue 1 0 1 true)).1 = .ok ∧
    answers (rt.handle 0 (.enqueue 1 0 1 true)).2 = [some (.ok .mismatched)] ∧
    (rt.handle 0 (.enqueue 1 (-1) 0 false)).1 = .ok ∧
    answers (rt.handle 0 (.enqueue 1 (-1) 0 false)).2 = List.replicate 3 (some (.ok .mismatched)) := by
  intro S d rt answers
  exact ⟨by decide +kernel, by decide +kernel, by decide +kernel, by decide +kernel, by decide +kernel⟩

end Parachuter
