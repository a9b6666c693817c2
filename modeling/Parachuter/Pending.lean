import Parachuter.Lib.FlatQueue
import Parachuter.Vanished
/-!
# Pending — the sender's queue as a flat list of packets

A work item stands for the packets it will send, one `Slot` each: a manifest, or the chunks of a range in order.  What an
operation does to the queue is what its `event` does to the flat list of all of them, for requests, scans, flushes and
sends alike; a send takes the head of the list and hands its packet to the network.  The account of the flat queue then
says what becomes of every packet pushed.
-/
namespace Parachuter

open Blob (Bytes)
open FlatQueue (Event Account part)

/-- One packet to send. -/
inductive Slot
  | manifest (fileId : FileId) (fileName : Text)
  | data (fileId : FileId) (chunkId : Nat)
  | retransmit (fileId : FileId) (chunkId : Nat)
  deriving DecidableEq, Repr

/-- The chunks of a range. -/
def RequestedRange.chunks (r : RequestedRange) : List Nat := List.range' r.start.toNat r.count.toNat

/-- The packets an item stands for. -/
def WorkItem.slots : WorkItem → List Slot
  | .manifest id name => [.manifest id name]
  | .data id r        => r.chunks.map (.data id)
  | .retransmit id r  => r.chunks.map (.retransmit id)

def PacketQueue.slots (q : PacketQueue) : List Slot := q.items.flatMap WorkItem.slots

/-- A whole file: its manifest and its chunks. -/
def Slot.fullFile (id : FileId) (name : Text) (total : UInt32) : List Slot :=
  .manifest id name :: (List.range' 0 total.toNat).map (.data id)

/-- The packet of a slot, as the file is cut at the size in force. -/
def Slot.packet (files : Text → Option Bytes) (rt : SenderRuntime) : Slot → Option Packet
  | .manifest id name =>
    (Chunker.open files name id rt.currentChunkSize).toOption.map (fun c => c.manifestPacket name)
  | .data id i        => (rt.ledger.get id).bind (fun rec =>
    (Chunker.open files rec.fileName id rt.currentChunkSize).toOption.bind (fun c => (c.dataPacket (UInt32.ofNat i)).toOption))
  | .retransmit id i  => (rt.ledger.get id).bind (fun rec =>
    (Chunker.open files rec.fileName id rt.currentChunkSize).toOption.bind
      (fun c => (c.retransmitPacket (UInt32.ofNat i)).toOption))

/-! ## What an operation does to the list -/

/-- What an answered registration pushes. -/
def SenderRuntime.pushed (front : Bool) (name : Text) : Except Error SubmitAck → Event Slot
  | .ok ack   => .push front (Slot.fullFile ack.fileId name ack.numChunks)
  | .error _  => .skip

/-- An interrupting request puts its packets before the list, any other after it; one that is refused does nothing. -/
def SenderOp.event (rt : SenderRuntime) : SenderOp → Event Slot
  | .submit metadata cwd path interrupt utc =>
    SenderRuntime.pushed interrupt (SenderRuntime.absolute cwd path) (rt.submit metadata cwd path interrupt utc).1
  | .enqueue id start count interrupt _ =>
    match rt.ledger.get id with
    | none     => .skip
    | some rec =>
      let total := rt.totalFor rec.fileSize
      if start < 0 then .push interrupt (Slot.fullFile rec.fileId rec.fileName total)
      else if total ≤ start.toUInt32 then .skip
      else
        let range : RequestedRange := ⟨start.toUInt32, min (max count 1) (total - start.toUInt32)⟩
        .push interrupt (range.chunks.map (.retransmit rec.fileId))
  | .resendName id =>
    match rt.ledger.get id with
    | none     => .skip
    | some rec => .push true [.manifest rec.fileId rec.fileName]
  | .scanForWork view utc =>
    let s := rt.cfg.current.sender
    match Scanner.nextCandidate view rt.scanDirs s.includeExtensions s.skipExtensions rt.ledger with
    | .ok (some c) => SenderRuntime.pushed false c.path (rt.registerAndPush c.path c.size c.createdAt false utc).1
    | _            => .skip
  | .flush      => .drop
  | .sendNext _ => .pop
  | _           => .skip

namespace SenderRuntime

variable {rt : SenderRuntime} {crc : Bytes → UInt32} {payload : Payload}

theorem slots_pushFullFile (rt : SenderRuntime) (id : FileId) (name : Text) (total : UInt32) (interrupt : Bool)
    (utc : DateTime) : (rt.pushFullFile id name total interrupt utc).queue.slots =
      FlatQueue.step rt.queue.slots (.push interrupt (Slot.fullFile id name total)) := by
  unfold pushFullFile PacketQueue.slots
  cases interrupt with
  | true => simp [FlatQueue.step, Slot.fullFile, WorkItem.slots, RequestedRange.chunks]
  | false => simp [FlatQueue.step, Slot.fullFile, WorkItem.slots, RequestedRange.chunks]

theorem slots_registerAndPush (rt : SenderRuntime) (name : Text) (size : UInt64) (created : DateTime) (interrupt : Bool)
    (utc : DateTime) : (rt.registerAndPush name size created interrupt utc).2.queue.slots =
      FlatQueue.step rt.queue.slots (pushed interrupt name (rt.registerAndPush name size created interrupt utc).1) := by
  unfold registerAndPush
  dsimp only
  split
  · rfl
  · exact slots_pushFullFile _ _ _ _ _ _

theorem slots_submit (rt : SenderRuntime) (metadata : Text → Except IoError FileMeta) (cwd : Option Text) (path : Text)
    (interrupt : Bool) (utc : DateTime) : (rt.submit metadata cwd path interrupt utc).2.queue.slots =
      FlatQueue.step rt.queue.slots ((SenderOp.submit metadata cwd path interrupt utc).event rt) := by
  simp only [submit, SenderOp.event]
  split
  · rfl
  · rfl
  · split
    · rfl
    · exact slots_registerAndPush _ _ _ _ _ _

theorem slots_enqueue (rt : SenderRuntime) (id : FileId) (start : Int32) (count : UInt32) (interrupt : Bool)
    (utc : DateTime) : (rt.enqueue id start count interrupt utc).2.queue.slots =
      FlatQueue.step rt.queue.slots ((SenderOp.enqueue id start count interrupt utc).event rt) := by
  simp only [enqueue, SenderOp.event]
  cases hrec : rt.ledger.get id with
  | none => rfl
  | some rec =>
    dsimp only
    by_cases hwhole : start < 0
    · rw [if_pos hwhole, if_pos hwhole]
      exact slots_pushFullFile _ _ _ _ _ _
    · rw [if_neg hwhole, if_neg hwhole]
      by_cases hout : rt.totalFor rec.fileSize ≤ start.toUInt32
      · rw [if_pos hout, if_pos (c := chunksForSize _ _ ≤ _) hout]
        rfl
      · rw [if_neg hout, if_neg (c := chunksForSize _ _ ≤ _) hout]
        unfold PacketQueue.slots
        cases interrupt with
        | true => simp [FlatQueue.step, WorkItem.slots, totalFor]
        | false => simp [FlatQueue.step, WorkItem.slots, totalFor]

theorem slots_resendName (rt : SenderRuntime) (id : FileId) : (rt.resendName id).2.queue.slots =
    FlatQueue.step rt.queue.slots ((SenderOp.resendName id).event rt) := by
  simp only [resendName, SenderOp.event]
  cases hrec : rt.ledger.get id with
  | none => rfl
  | some rec => rfl

theorem slots_scanForWork (rt : SenderRuntime) (view : Nat → Text → DirView) (utc : DateTime) :
    (rt.scanForWork view utc).2.queue.slots =
      FlatQueue.step rt.queue.slots ((SenderOp.scanForWork view utc).event rt) := by
  simp only [scanForWork, SenderOp.event]
  split
  · rename_i heq
    rw [heq]
    rfl
  · rename_i heq
    rw [heq]
    rfl
  · rename_i c heq
    rw [heq, ← slots_registerAndPush]
    split
    · rename_i hreg
      rw [hreg]
    · rename_i hreg
      rw [hreg]

/-! ## What a send does -/

/-- The file of a row is present, and the chunks of the range are chunks of it. -/
def InRange (files : Text → Option Bytes) (ledger : Ledger) (chunkSize : Nat) (id : FileId) (r : RequestedRange) : Prop :=
  ∃ rec file, ledger.get id = some rec ∧ files rec.fileName = some file ∧ 1 ≤ r.count.toNat ∧
    r.start.toNat + r.count.toNat ≤ (chunksForSize file.length (chunkSize - HEADER_LEN)).toNat

/-- An item whose file is present and whose range is within it. -/
def CanSend (files : Text → Option Bytes) : ItemCond := fun ledger chunkSize item =>
  match item with
  | .manifest _ name => ∃ file, files name = some file
  | .data id r       => InRange files ledger chunkSize id r
  | .retransmit id r => InRange files ledger chunkSize id r

theorem InRange.mono {files : Text → Option Bytes} {l l' : Ledger} {c : Nat} {id : FileId} {r : RequestedRange}
    (hext : l.Extends l') (h : InRange files l c id r) : InRange files l' c id r := by
  obtain ⟨rec, file, hrec, hfile, hr⟩ := h
  obtain ⟨rec', hrec', heq, -⟩ := hext _ rec hrec
  exact ⟨rec', file, hrec', by rw [heq]; exact hfile, hr⟩

theorem InRange.rest {files : Text → Option Bytes} {l : Ledger} {c : Nat} {id : FileId} {r : RequestedRange}
    (hmore : 1 < r.count) (h : InRange files l c id r) : InRange files l c id r.rest := by
  obtain ⟨rec, file, hrec, hfile, h1, h2⟩ := h
  have hmore' : 1 < r.count.toNat := UInt32.lt_iff_toNat_lt.1 hmore
  have hlt := (chunksForSize file.length (c - HEADER_LEN)).toNat_lt
  obtain ⟨hs, hc⟩ := RequestedRange.toNat_rest h1 (by omega)
  exact ⟨rec, file, hrec, hfile, by omega, by omega⟩

theorem canSend_stable (files : Text → Option Bytes) : (CanSend files).Stable where
  mono {l l' c item} hext h := by
    cases item with
    | manifest id name => exact h
    | data id r => exact InRange.mono hext h
    | retransmit id r => exact InRange.mono hext h
  data hmore h := InRange.rest hmore h
  retransmit hmore h := InRange.rest hmore h

/-- **What a successful send of a range went through.** -/
theorem sendRange_ok {packet : Chunker → UInt32 → Except Error Packet} {mk : RequestedRange → WorkItem} {id : FileId}
    {range : RequestedRange} (h : (sendRange crc payload packet mk rt id range).result = .ok true) :
    ∃ rec chunker pkt rl, rt.ledger.get id = some rec ∧
      Chunker.open payload.files rec.fileName id rt.currentChunkSize = .ok chunker ∧
      packet chunker range.start = .ok pkt ∧
      sendRange crc payload packet mk rt id range =
        ⟨.ok true, requeue { rt with rateLimiter := rl } mk range, some (pkt.encode crc)⟩ := by
  unfold sendRange at h
  split at h
  · cases h
  rename_i rec hrec
  split at h
  · cases h
  · cases h
  rename_i chunker hopen
  split at h
  · cases h
  rename_i pkt hpkt
  have hemit : (rt.emit payload (pkt.encode crc)).result = .ok true := by
    dsimp only at h
    split at h
    · exact h
    · split at h
      · exact h
      · exact h
  obtain ⟨rl, heq⟩ := @sendRange_sends rt crc payload packet mk id range rec hrec chunker hopen pkt hpkt hemit
  exact ⟨rec, chunker, pkt, rl, hrec, hopen, hpkt, heq⟩

theorem sendManifest_ok {id : FileId} {name : Text} (h : (sendManifest crc payload rt id name).result = .ok true) :
    ∃ chunker rl, Chunker.open payload.files name id rt.currentChunkSize = .ok chunker ∧
      sendManifest crc payload rt id name =
        ⟨.ok true, { rt with rateLimiter := rl }, some ((chunker.manifestPacket name).encode crc)⟩ := by
  unfold sendManifest at h ⊢
  split at h
  · cases h
  · rename_i chunker hopen
    obtain ⟨rl, heq⟩ := emit_sent h
    rw [hopen]
    exact ⟨chunker, rl, rfl, heq⟩

theorem sendRange_head {packet : Chunker → UInt32 → Except Error Packet} {mk : RequestedRange → WorkItem} {id : FileId}
    {slot : Nat → Slot} {range : RequestedRange} (hmk : ∀ r, (mk r).slots = r.chunks.map slot)
    (hslot : ∀ i : UInt32, (slot i.toNat).packet payload.files rt = (rt.ledger.get id).bind (fun rec =>
      (Chunker.open payload.files rec.fileName id rt.currentChunkSize).toOption.bind (fun c => (packet c i).toOption)))
    (hin : InRange payload.files rt.ledger rt.currentChunkSize id range)
    (h : (sendRange crc payload packet mk rt id range).result = .ok true) :
    ∃ pkt, (slot range.start.toNat).packet payload.files rt = some pkt ∧
      (sendRange crc payload packet mk rt id range).datagram = some (pkt.encode crc) ∧
      slot range.start.toNat :: (sendRange crc payload packet mk rt id range).rt.queue.slots =
        (mk range).slots ++ rt.queue.slots := by
  obtain ⟨-, file, -, -, h1, h2⟩ := hin
  have hlt := (chunksForSize file.length (rt.currentChunkSize - HEADER_LEN)).toNat_lt
  obtain ⟨rec, chunker, pkt, rl, hrec, hopen, hpkt, heq⟩ := sendRange_ok h
  refine ⟨pkt, ?_, ?_, ?_⟩
  · rw [hslot, hrec, Option.bind_some, hopen, Except.toOption, Option.bind_some, hpkt]
    rfl
  · rw [heq]
  · rw [heq]
    exact flatMap_requeue _ hmk h1 (by omega)

/-- **A successful send hands over the packet of the first slot and leaves the other slots.** -/
theorem sendNext_head {item : WorkItem} {items : List WorkItem} (hq : rt.queue.items = item :: items)
    (hcan : CanSend payload.files rt.ledger rt.currentChunkSize item) (h : (rt.sendNext crc payload).result = .ok true) :
    ∃ slot pkt, slot.packet payload.files rt = some pkt ∧
      (rt.sendNext crc payload).datagram = some (pkt.encode crc) ∧
      rt.queue.slots = slot :: (rt.sendNext crc payload).rt.queue.slots := by
  have hs : rt.state ≠ .paused := by
    intro hs
    rw [sendNext_paused crc payload hs] at h
    cases h
  have hslots : rt.queue.slots = item.slots ++ (rt.taking ⟨items, rt.queue.revision + 1⟩).queue.slots := by
    unfold PacketQueue.slots
    rw [hq, List.flatMap_cons]
    rfl
  rw [sendNext_cons crc payload hs hq] at h ⊢
  rw [hslots]
  cases item with
  | manifest id name =>
    obtain ⟨chunker, rl, hopen, heq⟩ := sendManifest_ok h
    refine ⟨.manifest id name, chunker.manifestPacket name, ?_, ?_, ?_⟩
    · show (Chunker.open payload.files name id rt.currentChunkSize).toOption.map _ = _
      rw [show Chunker.open payload.files name id rt.currentChunkSize = .ok chunker from hopen]
      rfl
    · rw [sendItem, heq]
    · rw [sendItem, heq]
      rfl
  | data id range =>
    obtain ⟨pkt, hpkt, hsent, hrest⟩ := @sendRange_head (rt.taking ⟨items, rt.queue.revision + 1⟩) crc payload
      Chunker.dataPacket (.data id) id (.data id) range (fun r => rfl) (fun i => by simp [Slot.packet]) hcan h
    exact ⟨.data id range.start.toNat, pkt, hpkt, hsent, hrest.symm⟩
  | retransmit id range =>
    obtain ⟨pkt, hpkt, hsent, hrest⟩ := @sendRange_head (rt.taking ⟨items, rt.queue.revision + 1⟩) crc payload
      Chunker.retransmitPacket (.retransmit id) id (.retransmit id) range (fun r => rfl) (fun i => by simp [Slot.packet])
      hcan h
    exact ⟨.retransmit id range.start.toNat, pkt, hpkt, hsent, hrest.symm⟩

/-- A successful send leaves all but the queue and the bucket alone. -/
theorem sendNext_ok_leaves (h : (rt.sendNext crc payload).result = .ok true) :
    ∃ queue rateLimiter, (rt.sendNext crc payload).rt = { rt with queue := queue, rateLimiter := rateLimiter } := by
  have hrange : ∀ {packet : Chunker → UInt32 → Except Error Packet} {mk : RequestedRange → WorkItem} {id : FileId}
      {range : RequestedRange} {rt' : SenderRuntime}, (sendRange crc payload packet mk rt' id range).result = .ok true →
      ∃ queue rateLimiter, (sendRange crc payload packet mk rt' id range).rt =
        { rt' with queue := queue, rateLimiter := rateLimiter } := by
    intro packet mk id range rt' hr
    obtain ⟨rec, chunker, pkt, rl, -, -, -, heq⟩ := sendRange_ok hr
    rw [heq]
    unfold requeue
    split
    · exact ⟨_, _, rfl⟩
    · exact ⟨_, _, rfl⟩
  rcases sendNext_cases crc payload rt with heq | ⟨item, items, -, -, heq⟩
  · rw [heq] at h
    cases h
  · rw [heq] at h ⊢
    cases item with
    | manifest id name =>
      obtain ⟨chunker, rl, -, hsent⟩ := sendManifest_ok h
      rw [sendItem, hsent]
      exact ⟨_, _, rfl⟩
    | data id range => exact hrange h
    | retransmit id range => exact hrange h

/-- No pending packet is longer than one second's worth of traffic. -/
def Unblocked (crc : Bytes → UInt32) (files : Text → Option Bytes) (rt : SenderRuntime) : Prop :=
  ∀ slot ∈ rt.queue.slots, ∀ pkt, slot.packet files rt = some pkt → (pkt.encode crc).length ≤ rt.secondsWorth

theorem sendRange_succeeds {packet : Chunker → UInt32 → Except Error Packet} {mk : RequestedRange → WorkItem} {id : FileId}
    {slot : Nat → Slot} {range : RequestedRange}
    (hok : MIN_CHUNK_SIZE ≤ rt.currentChunkSize ∧ rt.currentChunkSize ≤ MAX_CHUNK_SIZE) (hnet : payload.net.Takes)
    (hrate : rt.Paced)
    (hslot : ∀ i : UInt32, (slot i.toNat).packet payload.files rt = (rt.ledger.get id).bind (fun rec =>
      (Chunker.open payload.files rec.fileName id rt.currentChunkSize).toOption.bind (fun c => (packet c i).toOption)))
    (hp : ∀ c i, i < c.numChunks → ∃ p, packet c i = .ok p)
    (hin : InRange payload.files rt.ledger rt.currentChunkSize id range)
    (hfit : ∀ pkt, (slot range.start.toNat).packet payload.files rt = some pkt → (pkt.encode crc).length ≤ rt.secondsWorth) :
    (sendRange crc payload packet mk rt id range).result = .ok true := by
  obtain ⟨rec, file, hrec, hfile, h1, h2⟩ := hin
  have hopen := Chunker.open_some hok hfile id
  have hlt : range.start < chunksForSize file.length (rt.currentChunkSize - HEADER_LEN) :=
    UInt32.lt_iff_toNat_lt.2 (by omega)
  obtain ⟨pkt, hpkt⟩ := hp ⟨file, id, rt.currentChunkSize, rt.currentChunkSize - HEADER_LEN,
    chunksForSize file.length (rt.currentChunkSize - HEADER_LEN)⟩ range.start hlt
  have hpacket : (slot range.start.toNat).packet payload.files rt = some pkt := by
    rw [hslot, hrec, Option.bind_some, hopen, Except.toOption, Option.bind_some, hpkt]
    rfl
  obtain ⟨rl, heq⟩ := @sendRange_taken rt crc payload packet mk id range rec hrec _ hopen pkt hpkt hnet hrate
    (hfit pkt hpacket)
  rw [heq]

/-- **What can be sent and is not too long for the limiter is sent.** -/
theorem sendNext_succeeds (hok : MIN_CHUNK_SIZE ≤ rt.currentChunkSize ∧ rt.currentChunkSize ≤ MAX_CHUNK_SIZE)
    (hs : rt.state ≠ .paused) (hnet : payload.net.Takes) {item : WorkItem} {items : List WorkItem}
    (hq : rt.queue.items = item :: items) (hcan : CanSend payload.files rt.ledger rt.currentChunkSize item)
    (hfree : rt.Unblocked crc payload.files) : (rt.sendNext crc payload).result = .ok true := by
  have hslots : ∀ slot ∈ item.slots, slot ∈ rt.queue.slots := by
    intro slot hm
    unfold PacketQueue.slots
    rw [hq, List.flatMap_cons]
    exact List.mem_append_left _ hm
  have hfirst : ∀ {range : RequestedRange}, InRange payload.files rt.ledger rt.currentChunkSize item.fileId range →
      range.start.toNat ∈ range.chunks := by
    rintro range ⟨-, -, -, -, h1, -⟩
    exact List.mem_range'_1.2 ⟨Nat.le_refl _, by omega⟩
  rw [sendNext_cons crc payload hs hq]
  cases item with
  | manifest id name =>
    obtain ⟨file, hfile⟩ := hcan
    have hopen := Chunker.open_some hok hfile id
    have hfit := hfree (.manifest id name) (hslots _ (List.mem_singleton_self _)) (Chunker.manifestPacket _ name)
      (by rw [Slot.packet, hopen]; rfl)
    obtain ⟨rl, heq⟩ := @emit_taken (rt.taking ⟨items, rt.queue.revision + 1⟩) payload hnet (paced_taking _ _)
      (Chunker.manifestPacket _ name) crc hfit
    rw [sendItem, @sendManifest_emit (rt.taking ⟨items, rt.queue.revision + 1⟩) crc payload id name _ hopen, heq]
  | data id range =>
    exact @sendRange_succeeds (rt.taking ⟨items, rt.queue.revision + 1⟩) crc payload Chunker.dataPacket (.data id) id
      (.data id) range hok hnet (paced_taking _ _) (fun i => by simp [Slot.packet]) (fun c i => Chunker.dataPacket_of_lt)
      hcan (hfree (.data id range.start.toNat) (hslots _ (List.mem_map_of_mem (hfirst hcan))))
  | retransmit id range =>
    exact @sendRange_succeeds (rt.taking ⟨items, rt.queue.revision + 1⟩) crc payload Chunker.retransmitPacket (.retransmit id)
      id (.retransmit id) range hok hnet (paced_taking _ _) (fun i => by simp [Slot.packet])
      (fun c i => Chunker.retransmitPacket_of_lt) hcan
      (hfree (.retransmit id range.start.toNat) (hslots _ (List.mem_map_of_mem (hfirst hcan))))

end SenderRuntime

/-! ## Runs -/

namespace SenderOp

variable {crc : Bytes → UInt32}

/-- An operation on the queue; a send is successful, and its item can be sent. -/
def Proceeds (crc : Bytes → UInt32) (rt : SenderRuntime) (op : SenderOp) : Prop :=
  op.OnQueue ∧ ∀ payload, op = .sendNext payload →
    (rt.sendNext crc payload).result = .ok true ∧ ∀ item ∈ rt.queue.items.head?,
      SenderRuntime.CanSend payload.files rt.ledger rt.currentChunkSize item

def RunProceeds (crc : Bytes → UInt32) : SenderRuntime → List SenderOp → Prop
  | _, []         => True
  | rt, op :: ops => Proceeds crc rt op ∧ RunProceeds crc (op.apply crc rt) ops

/-- What the operations of a run do to the list, one by one. -/
def events (crc : Bytes → UInt32) : SenderRuntime → List SenderOp → List (Event Slot)
  | _, []         => []
  | rt, op :: ops => op.event rt :: events crc (op.apply crc rt) ops

/-- The datagram of an operation. -/
def datagram (crc : Bytes → UInt32) (rt : SenderRuntime) : SenderOp → Option Bytes
  | .sendNext payload => (rt.sendNext crc payload).datagram
  | _                 => none

/-- The datagrams of a run. -/
def datagrams (crc : Bytes → UInt32) : SenderRuntime → List SenderOp → List Bytes
  | _, []         => []
  | rt, op :: ops => (op.datagram crc rt).toList ++ datagrams crc (op.apply crc rt) ops

/-- One operation on the queue is one event on the list, and a send transmits the head of the list. -/
structure Refines (crc : Bytes → UInt32) (rt : SenderRuntime) (op : SenderOp) : Prop where
  slots : (op.apply crc rt).queue.slots = FlatQueue.step rt.queue.slots (op.event rt)
  head  : ∀ payload, op = .sendNext payload → ∃ slot rest pkt, rt.queue.slots = slot :: rest ∧
    slot.packet payload.files rt = some pkt ∧ (rt.sendNext crc payload).datagram = some (pkt.encode crc)

/-- **Every operation refines its event.** -/
theorem Proceeds.refines {rt : SenderRuntime} {op : SenderOp} (h : Proceeds crc rt op) : Refines crc rt op := by
  obtain ⟨hop, hsend⟩ := h
  cases op with
  | submit metadata cwd path interrupt utc => exact ⟨rt.slots_submit _ _ _ _ _, fun _ h => by cases h⟩
  | enqueue fileId start count interrupt utc => exact ⟨rt.slots_enqueue _ _ _ _ _, fun _ h => by cases h⟩
  | resendName fileId => exact ⟨rt.slots_resendName _, fun _ h => by cases h⟩
  | scanForWork view utc => exact ⟨rt.slots_scanForWork _ _, fun _ h => by cases h⟩
  | flush =>
    refine ⟨?_, fun _ h => by cases h⟩
    show rt.queue.clear.slots = []
    unfold PacketQueue.slots
    rw [PacketQueue.clear_items]
    rfl
  | sendNext payload =>
    obtain ⟨hok, hcan⟩ := hsend payload rfl
    cases hq : rt.queue.items with
    | nil =>
      rw [SenderRuntime.sendNext_nil crc payload hq] at hok
      cases hok
    | cons item items =>
      obtain ⟨slot, pkt, hpkt, hsent, hslots⟩ := SenderRuntime.sendNext_head hq (hcan item (by rw [hq]; rfl)) hok
      refine ⟨?_, fun payload' heq => ?_⟩
      · show (rt.sendNext crc payload).rt.queue.slots = rt.queue.slots.tail
        rw [hslots]
        rfl
      · cases heq
        exact ⟨slot, _, pkt, hslots, hpkt, hsent⟩
  | applyOverride o => exact hop.elim
  | setState new => exact hop.elim
  | reload cfg => exact hop.elim
  | stamp lastRecheck lastStatusDump => exact hop.elim

theorem takes_pushed (front : Bool) (name : Text) (ack : Except Error SubmitAck) :
    (SenderRuntime.pushed front name ack).takes = false := by
  cases ack <;> rfl

/-- Nothing but a send takes a slot or hands over a datagram. -/
theorem skips {rt : SenderRuntime} {op : SenderOp} (h : ∀ payload, op ≠ .sendNext payload) :
    (op.event rt).takes = false ∧ op.datagram crc rt = none := by
  cases op with
  | submit metadata cwd path interrupt utc => exact ⟨takes_pushed _ _ _, rfl⟩
  | enqueue fileId start count interrupt utc =>
    refine ⟨?_, rfl⟩
    simp only [event]
    repeat' split
    all_goals rfl
  | resendName fileId =>
    refine ⟨?_, rfl⟩
    simp only [event]
    split <;> rfl
  | scanForWork view utc =>
    refine ⟨?_, rfl⟩
    simp only [event]
    split
    · exact takes_pushed _ _ _
    · rfl
  | sendNext payload => exact absurd rfl (h payload)
  | _ => exact ⟨rfl, rfl⟩

theorem Proceeds.settings {rt : SenderRuntime} {op : SenderOp} (h : Proceeds crc rt op) :
    (op.apply crc rt).currentChunkSize = rt.currentChunkSize ∧ (op.apply crc rt).state = rt.state := by
  obtain ⟨ledger, queue, rateLimiter, heq⟩ := SenderRuntime.apply_leaves crc rt h.1
  rw [heq]
  exact ⟨rfl, rfl⟩

/-- A list of slots and the datagrams that carried them, at a chunk size. -/
def Carried (crc : Bytes → UInt32) (chunkSize : Nat) : List Slot → List Bytes → Prop :=
  List.Forall₂ (fun slot bytes => ∃ (files : Text → Option Bytes) (rt : SenderRuntime) (pkt : Packet),
    rt.currentChunkSize = chunkSize ∧ slot.packet files rt = some pkt ∧ bytes = pkt.encode crc)

namespace RunProceeds

/-- Every operation of the run refines its event, at the chunk size of its start. -/
theorem refines : ∀ (ops : List SenderOp) {rt : SenderRuntime}, RunProceeds crc rt ops →
    ∀ pre op post, ops = pre ++ op :: post → Refines crc (run crc rt pre) op ∧
      (run crc rt pre).currentChunkSize = rt.currentChunkSize
  | [], _, _, pre, _, _, heq                   => by cases pre <;> cases heq
  | _ :: _, _, ⟨h, _⟩, [], _, _, heq           => by cases heq; exact ⟨h.refines, rfl⟩
  | _ :: ops, _, ⟨h, hr⟩, _ :: pre, op, post, heq => by
    cases heq
    obtain ⟨h1, h2⟩ := refines _ hr pre op post rfl
    exact ⟨h1, h2.trans h.settings.1⟩

/-- The account of a run: it ends with the queue there is, and what it took was transmitted, in order. -/
theorem account : ∀ (ops : List SenderOp) {rt : SenderRuntime} (s : Account Slot), RunProceeds crc rt ops →
    s.pending.map Prod.snd = rt.queue.slots →
    (s.run (events crc rt ops)).pending.map Prod.snd = (run crc rt ops).queue.slots ∧
      ∃ new, (s.run (events crc rt ops)).taken = s.taken ++ new ∧
        Carried crc rt.currentChunkSize (new.map Prod.snd) (datagrams crc rt ops)
  | [], _, s, _, hs                 => ⟨hs, [], (List.append_nil _).symm, .nil⟩
  | op :: ops, rt, s, ⟨h, hr⟩, hs => by
    obtain ⟨hslots, hhead⟩ := h.refines
    obtain ⟨hpending, new, htaken, hcarried⟩ := account ops (s.step (op.event rt)) hr
      (by rw [s.pending_step, hs, hslots])
    rw [h.settings.1] at hcarried
    rw [s.taken_step] at htaken
    refine ⟨hpending, _, htaken.trans (List.append_assoc _ _ _), ?_⟩
    rw [List.map_append]
    refine List.rel_append ?_ hcarried
    by_cases hop : ∃ payload, op = .sendNext payload
    · obtain ⟨payload, rfl⟩ := hop
      obtain ⟨slot, rest, pkt, hslot, hpkt, hsent⟩ := hhead payload rfl
      rw [← hs] at hslot
      obtain ⟨x, pending, hp, rfl, -⟩ := List.map_eq_cons_iff.1 hslot
      rw [hp, datagram, hsent]
      exact .cons ⟨payload.files, rt, pkt, rfl, hpkt, rfl⟩ .nil
    · obtain ⟨htakes, hnone⟩ := @skips crc rt op (fun payload heq => hop ⟨payload, heq⟩)
      rw [htakes, hnone]
      exact .nil

/-- **Successful sends drain the queue**: as many as there are slots send every slot, once and in order. -/
theorem drains {payload : Payload} : ∀ (n : Nat) (rt : SenderRuntime), rt.queue.slots.length = n →
    RunProceeds crc rt (List.replicate n (.sendNext payload)) →
      (run crc rt (List.replicate n (.sendNext payload))).queue.slots = [] ∧
      Carried crc rt.currentChunkSize rt.queue.slots (datagrams crc rt (List.replicate n (.sendNext payload)))
  | 0, rt, hn, _ => by
    have hnil : rt.queue.slots = [] := List.length_eq_zero_iff.1 hn
    rw [hnil]
    exact ⟨hnil, .nil⟩
  | n + 1, rt, hn, ⟨h, hr⟩ => by
    obtain ⟨hslots, hhead⟩ := h.refines
    obtain ⟨slot, rest, pkt, hslot, hpkt, hsent⟩ := hhead payload rfl
    have hrest : (apply crc rt (.sendNext payload)).queue.slots = rest := by
      rw [hslots, hslot]
      rfl
    rw [hslot, List.length_cons, Nat.add_right_cancel_iff, ← hrest] at hn
    obtain ⟨hempty, hcarried⟩ := drains n (apply crc rt (.sendNext payload)) hn hr
    refine ⟨hempty, ?_⟩
    rw [h.settings.1, hrest] at hcarried
    rw [hslot, List.replicate_succ, datagrams, datagram, hsent]
    exact .cons ⟨payload.files, rt, pkt, rfl, hpkt, rfl⟩ hcarried

/-- **With everything there to be sent and nothing too long for the limiter**, as many sends succeed as there are slots. -/
theorem sends_of_unblocked {payload : Payload} (hnet : payload.net.Takes) : ∀ (n : Nat) (rt : SenderRuntime),
    (MIN_CHUNK_SIZE ≤ rt.currentChunkSize ∧ rt.currentChunkSize ≤ MAX_CHUNK_SIZE) → rt.state ≠ .paused →
    rt.Queued (SenderRuntime.CanSend payload.files) → rt.Unblocked crc payload.files → rt.queue.slots.length = n →
    RunProceeds crc rt (List.replicate n (.sendNext payload))
  | 0, _, _, _, _, _, _ => trivial
  | n + 1, rt, hok, hstate, hcan, hfree, hn => by
    cases hq : rt.queue.items with
    | nil =>
      unfold PacketQueue.slots at hn
      rw [hq] at hn
      cases hn
    | cons item items =>
      have hitem := hcan item (by rw [hq]; exact List.mem_cons_self)
      have hsucceeds : (rt.sendNext crc payload).result = .ok true :=
        SenderRuntime.sendNext_succeeds hok hstate hnet hq hitem hfree
      have hgo : Proceeds crc rt (.sendNext payload) := by
        refine ⟨trivial, fun payload' heq => ?_⟩
        cases heq
        refine ⟨hsucceeds, fun i hi => ?_⟩
        rw [hq] at hi
        cases hi
        exact hitem
      obtain ⟨hsize, hstate'⟩ := hgo.settings
      have hslots : rt.queue.slots.tail = (apply crc rt (.sendNext payload)).queue.slots := hgo.refines.slots.symm
      have hfree' : (apply crc rt (.sendNext payload)).Unblocked crc payload.files := by
        obtain ⟨queue, rateLimiter, heq⟩ := SenderRuntime.sendNext_ok_leaves hsucceeds
        have heq' : apply crc rt (.sendNext payload) = { rt with queue := queue, rateLimiter := rateLimiter } := heq
        intro slot hm pkt hpkt
        rw [← hslots] at hm
        rw [heq'] at hpkt ⊢
        exact hfree slot (List.mem_of_mem_tail hm) pkt hpkt
      exact ⟨hgo, sends_of_unblocked hnet n (apply crc rt (.sendNext payload)) (by rw [hsize]; exact hok)
        (by rw [hstate']; exact hstate) (hcan.sendNext (SenderRuntime.canSend_stable _) crc payload) hfree'
        (by rw [← hslots, List.length_tail, hn]; rfl)⟩

end RunProceeds

end SenderOp

/-- **The queue is a flat list of packets**, over every run of requests, scans, flushes and successful sends from a
reachable runtime.  Each operation does its event to the list, and a send transmits the head of it.  What was pushed is
what was transmitted, what is pending and what was flushed; a whole file's manifest is transmitted before its chunks.  As
many successful sends as packets are pending transmit these, once each; and they do succeed when all that is queued can be
sent and nothing of it is too long for the limiter. -/
theorem queue_refines_flat_list (crc : Bytes → UInt32) (cfg : LiveConfig) (ledger : Ledger) (now : Int) (nowSecs : ℚ)
    (before ops : List SenderOp)
    (h : SenderOp.RunProceeds crc (SenderOp.run crc (.new cfg ledger now nowSecs) before) ops) :
    let rt := SenderOp.run crc (.new cfg ledger now nowSecs) before
    let rt' := SenderOp.run crc rt ops
    let s := (Account.start rt.queue.slots).run (SenderOp.events crc rt ops)
    (∀ pre op post, ops = pre ++ op :: post → SenderOp.Refines crc (SenderOp.run crc rt pre) op ∧
      (SenderOp.run crc rt pre).currentChunkSize = rt.currentChunkSize) ∧
    s.pending.map Prod.snd = rt'.queue.slots ∧
    SenderOp.Carried crc rt.currentChunkSize (s.taken.map Prod.snd) (SenderOp.datagrams crc rt ops) ∧
    (∀ k block, s.blocks[k]? = some block → part k s.taken ++ (part k s.pending ++ part k s.dropped) = block) ∧
    (∀ k id name total, s.blocks[k]? = some (Slot.fullFile id name total) → ∀ i earlier later,
      s.taken = earlier ++ (k, .data id i) :: later → (k, .manifest id name) ∈ earlier) ∧
    ∀ payload : Payload,
      let sends := List.replicate rt'.queue.slots.length (.sendNext payload)
      (SenderOp.RunProceeds crc rt' sends → (SenderOp.run crc rt' sends).queue.slots = [] ∧
        SenderOp.Carried crc rt'.currentChunkSize rt'.queue.slots (SenderOp.datagrams crc rt' sends)) ∧
      (payload.net.Takes → rt'.state ≠ .paused → rt'.Queued (SenderRuntime.CanSend payload.files) →
        rt'.Unblocked crc payload.files → SenderOp.RunProceeds crc rt' sends) := by
  intro rt rt' s
  have hstart : ((Account.start rt.queue.slots).pending).map Prod.snd = rt.queue.slots := by
    show (rt.queue.slots.map (Prod.mk 0)).map Prod.snd = rt.queue.slots
    rw [List.map_map]
    exact List.map_id _
  have hbalanced : s.Balanced := .run _ (Account.balanced_start _)
  obtain ⟨hpending, new, htaken, hcarried⟩ := SenderOp.RunProceeds.account ops (Account.start rt.queue.slots) h hstart
  have hwf : rt'.Wf := .run crc ops (.run crc before (.new cfg ledger now nowSecs))
  refine ⟨SenderOp.RunProceeds.refines ops h, hpending, ?_, hbalanced.block, ?_, ?_⟩
  · rw [show s.taken = new from htaken]
    exact hcarried
  · intro k id name total hblock i earlier later heq
    exact hbalanced.first hblock heq (by simp)
  · intro payload
    refine ⟨SenderOp.RunProceeds.drains _ rt' rfl, fun hnet hstate hcan hfree => ?_⟩
    exact SenderOp.RunProceeds.sends_of_unblocked hnet _ rt' hwf.chunkSize_ok hstate hcan hfree rfl

/-- A request for the name comes between the manifest and the first of two chunks. -/
theorem queue_refines_flat_list_name_between :
    let rt := SenderOp.run crc32 Forty.start [Forty.setChunkSize 64]
    let ops := [Forty.submit, Forty.send, .resendName 1, Forty.send, Forty.send]
    SenderOp.RunProceeds crc32 rt ops ∧ (SenderOp.run crc32 rt ops).queue.slots = [.data 1 1] ∧
      SenderOp.Carried crc32 64 [.manifest 1 "/a".toList, .manifest 1 "/a".toList, .data 1 0]
        (SenderOp.datagrams crc32 rt ops) := by
  intro rt ops
  have hsend : ∀ (pre : List SenderOp) (item : WorkItem),
      (SenderOp.run crc32 rt pre).queue.items.head? = some item →
      SenderRuntime.CanSend Forty.files (SenderOp.run crc32 rt pre).ledger (SenderOp.run crc32 rt pre).currentChunkSize item →
      ((SenderOp.run crc32 rt pre).sendNext crc32 (.ideal Forty.files)).result = .ok true →
      SenderOp.Proceeds crc32 (SenderOp.run crc32 rt pre) Forty.send := by
    intro pre item hhead hcan hok
    refine ⟨trivial, fun payload heq => ?_⟩
    cases heq
    refine ⟨hok, fun i hi => ?_⟩
    rw [hhead] at hi
    cases hi
    exact hcan
  have hname : ∃ file, Forty.files "/a".toList = some file := ⟨_, rfl⟩
  have hgo : SenderOp.RunProceeds crc32 rt ops := by
    refine ⟨⟨trivial, fun _ heq => by cases heq⟩, ?_, ⟨trivial, fun _ heq => by cases heq⟩, ?_, ?_, trivial⟩
    · exact hsend [Forty.submit] (.manifest 1 "/a".toList) (by decide +kernel) hname (by decide +kernel)
    · exact hsend [Forty.submit, Forty.send, .resendName 1] (.manifest 1 "/a".toList) (by decide +kernel) hname
        (by decide +kernel)
    · refine hsend [Forty.submit, Forty.send, .resendName 1, Forty.send] (.data 1 ⟨0, 2⟩) (by decide +kernel) ?_
        (by decide +kernel)
      have hrow : ((SenderOp.run crc32 rt [Forty.submit, Forty.send, .resendName 1, Forty.send]).ledger.get 1).map
          FileRecord.fileName = some "/a".toList := by decide +kernel
      obtain ⟨rec, hrec, hname⟩ := Option.map_eq_some_iff.1 hrow
      exact ⟨rec, List.replicate 40 0, hrec, by rw [hname]; rfl, by decide, by decide +kernel⟩
  obtain ⟨-, -, hcarried, -⟩ := queue_refines_flat_list crc32 .default .empty 0 0 [Forty.setChunkSize 64] ops hgo
  refine ⟨hgo, by decide +kernel, ?_⟩
  have htaken : ((Account.start rt.queue.slots).run (SenderOp.events crc32 rt ops)).taken.map Prod.snd =
      [.manifest 1 "/a".toList, .manifest 1 "/a".toList, .data 1 0] := by
    decide +kernel
  rw [← htaken]
  exact hcarried

end Parachuter
