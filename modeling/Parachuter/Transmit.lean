import Parachuter.Assembly
import Parachuter.Operations
/-!
# Transmit — the sender's queue as a list of deliveries

A work item stands for the deliveries it is due to make, in order (`due`), and the queue for all of them.  On a sender
that is ready for the files listed, one `send_next` hands the first due packet to the network and leaves the rest, if the
limiter lets the datagram go (`Ready.sendNext`).  So draining the queue sends every one of them, once and in order, when
none is longer than one second's worth of traffic (`Ready.drain`), and is stuck for ever when one is (`Ready.drain_blocked`).
-/
namespace Parachuter

open Blob (Bytes)

/-- What an item is due to deliver. -/
def WorkItem.due : WorkItem → List (FileId × Delivery)
  | .manifest id _   => [(id, .name)]
  | .data id r       => (List.range' r.start.toNat r.count.toNat).map (fun i => (id, .chunk i))
  | .retransmit id r => (List.range' r.start.toNat r.count.toNat).map (fun i => (id, .chunk i))

def PacketQueue.due (q : PacketQueue) : List (FileId × Delivery) := q.items.flatMap WorkItem.due

theorem PacketQueue.due_of_empty {q : PacketQueue} (h : q.items = []) : q.due = [] := by
  rw [PacketQueue.due, h]
  rfl

/-- An item the file can answer: its manifest, or a range of its chunks. -/
def Source.Answers (S : Source) : WorkItem → Prop
  | .manifest id name => id = S.fileId ∧ name = S.name
  | .data id r        => id = S.fileId ∧ 1 ≤ r.count.toNat ∧ r.start.toNat + r.count.toNat ≤ S.count
  | .retransmit id r  => id = S.fileId ∧ 1 ≤ r.count.toNat ∧ r.start.toNat + r.count.toNat ≤ S.count

/-- The length of the datagram that makes a delivery. -/
def Source.datagramLen (S : Source) : Delivery → Nat
  | .name    => HEADER_LEN + (Utf8.encode S.name).length
  | .chunk i => HEADER_LEN + (S.piece i).length

theorem Source.Sends.length_encode {S : Source} {pkt : Packet} (h : S.Sends pkt) (crc : Bytes → UInt32) :
    (pkt.encode crc).length = S.datagramLen pkt.delivery := by
  rw [Parachuter.length_encode]
  rcases h.cases with rfl | ⟨i, hi⟩
  · rfl
  · have hdel : pkt.delivery = .chunk i := by
      rcases hi.isChunk with ht | ht <;> simp [Packet.delivery, ht, hi.chunkId]
    rw [hdel, hi.payload]
    rfl

/-- Each chunk of the file has a data packet. -/
theorem Source.dataPacket_sends (S : Source) (i : UInt32) (hi : i.toNat < S.count) :
    ∃ pkt, S.chunker.dataPacket i = .ok pkt ∧ S.Sends pkt ∧ pkt.delivery = .chunk i.toNat := by
  obtain ⟨p, hpk⟩ := Chunker.dataPacket_of_lt (UInt32.lt_iff_toNat_lt.2 hi : i < S.chunker.numChunks)
  obtain ⟨htype, hc⟩ := S.isChunk_dataPacket hpk
  refine ⟨p, hpk, .data i p hpk, ?_⟩
  rw [Packet.delivery, htype, hc.chunkId]

/-- Each chunk of the file has a retransmit packet. -/
theorem Source.retransmitPacket_sends (S : Source) (i : UInt32) (hi : i.toNat < S.count) :
    ∃ pkt, S.chunker.retransmitPacket i = .ok pkt ∧ S.Sends pkt ∧ pkt.delivery = .chunk i.toNat := by
  obtain ⟨p, hpk⟩ := Chunker.retransmitPacket_of_lt (UInt32.lt_iff_toNat_lt.2 hi : i < S.chunker.numChunks)
  obtain ⟨htype, hc⟩ := S.isChunk_retransmitPacket hpk
  refine ⟨p, hpk, .retransmit i p hpk, ?_⟩
  rw [Packet.delivery, htype, hc.chunkId]

/-- No datagram of the file is longer than `n`. -/
def Source.FitsIn (S : Source) (n : Nat) : Prop := ∀ e, S.datagramLen e ≤ n

theorem Source.fitsIn_of_le {S : Source} {n : Nat} (hname : HEADER_LEN + (Utf8.encode S.name).length ≤ n)
    (hsize : S.chunkSize ≤ n) : S.FitsIn n := by
  intro e
  cases e with
  | name => exact hname
  | chunk i =>
    have hok := S.sizeOk.1
    show HEADER_LEN + (S.piece i).length ≤ n
    rw [S.length_piece, payloadSize]
    simp only [MIN_CHUNK_SIZE, HEADER_LEN] at *
    omega

/-- The file is on the payload as its ledger row has it. -/
structure Source.Registered (S : Source) (payload : Payload) (rt : SenderRuntime) : Prop where
  row  : ∃ rec, rt.ledger.get S.fileId = some rec ∧ rec.fileName = S.name ∧ rec.fileSize.toNat = S.bytes.length
  file : payload.files S.name = some S.bytes

/-- The same, at the chunk size in force. -/
structure Source.OnPayload (S : Source) (payload : Payload) (rt : SenderRuntime) : Prop extends
    S.Registered payload rt where
  size : S.chunkSize = rt.currentChunkSize

theorem Source.OnPayload.unique {S T : Source} {payload : Payload} {rt : SenderRuntime} (hS : S.OnPayload payload rt)
    (hT : T.OnPayload payload rt) (h : S.fileId = T.fileId) : S = T := by
  obtain ⟨recS, hrecS, hnameS, -⟩ := hS.row
  obtain ⟨recT, hrecT, hnameT, -⟩ := hT.row
  rw [h, hrecT] at hrecS
  cases hrecS
  have hname : S.name = T.name := hnameS.symm.trans hnameT
  have hfile := hS.file
  rw [hname, hT.file] at hfile
  have hsize : S.chunkSize = T.chunkSize := hS.size.trans hT.size.symm
  cases S
  cases T
  cases hfile
  cases h
  cases hname
  cases hsize
  rfl

/-- A sender that is not paused and can answer all it has queued. -/
structure Ready (Ss : List Source) (payload : Payload) (rt : SenderRuntime) : Prop where
  state   : rt.state ≠ .paused
  sources : ∀ S ∈ Ss, S.OnPayload payload rt
  items   : ∀ item ∈ rt.queue.items, ∃ S ∈ Ss, S.Answers item

namespace SenderRuntime

/-- What a drain comes to: its result, the datagrams it hands over and the runtime it leaves. -/
structure Drained where
  result : Except Halt Unit
  sent   : List Bytes
  rt     : SenderRuntime

/-- `send_next` again and again.  An error ends the daemon, and a wait that never ends holds it. -/
def drain (crc : Bytes → UInt32) (payload : Payload) : Nat → SenderRuntime → Drained
  | 0, rt        => ⟨.ok (), [], rt⟩
  | fuel + 1, rt =>
    let out := rt.sendNext crc payload
    match out.result with
    | .error e => ⟨.error e, out.datagram.toList, out.rt⟩
    | .ok _    =>
      let rest := drain crc payload fuel out.rt
      ⟨rest.result, out.datagram.toList ++ rest.sent, rest.rt⟩

theorem drain_nil (crc : Bytes → UInt32) (payload : Payload) {rt : SenderRuntime} (h : rt.queue.items = []) :
    ∀ fuel, drain crc payload fuel rt = ⟨.ok (), [], rt⟩
  | 0        => rfl
  | fuel + 1 => by
    unfold drain
    rw [sendNext_nil crc payload h]
    simp only [Option.toList_none, List.nil_append, drain_nil crc payload h fuel]

end SenderRuntime

namespace Ready

variable {Ss : List Source} {payload : Payload} {rt : SenderRuntime} {crc : Bytes → UInt32}

/-- Only the state, the settings, the ledger and the queue matter. -/
theorem of_queue (h : Ready Ss payload rt) {rt' : SenderRuntime} (hstate : rt'.state = rt.state)
    (hsize : rt'.currentChunkSize = rt.currentChunkSize) (hledger : rt'.ledger = rt.ledger)
    (hitems : ∀ item ∈ rt'.queue.items, ∃ S ∈ Ss, S.Answers item) : Ready Ss payload rt' := by
  refine ⟨by rw [hstate]; exact h.state, fun S hS => ?_, hitems⟩
  obtain ⟨⟨h1, h2⟩, h3⟩ := h.sources S hS
  exact ⟨⟨by rw [hledger]; exact h1, h2⟩, h3.trans hsize.symm⟩

/-- With paths of the platform's length the packets of the files fit the receive loop's buffer. -/
theorem length_encode_le (h : Ready Ss payload rt) (hpath : payload.PathsShort) {S : Source} (hS : S ∈ Ss) {p : Packet}
    (hp : S.Sends p) : (p.encode crc).length ≤ MAX_CHUNK_SIZE := by
  have hshort := hpath S.name S.bytes (h.sources S hS).file
  refine hp.length_le crc ?_
  simp only [HEADER_LEN, MAX_CHUNK_SIZE, PATH_MAX] at *
  omega

/-- A send on a sender that is ready: of the deliveries due, the first goes out, or it is too long for the limiter and holds
the sender for ever. -/
structure Sends (Ss : List Source) (crc : Bytes → UInt32) (payload : Payload) (rt : SenderRuntime)
    (out : SenderRuntime.Out) (due : List (FileId × Delivery)) (S : Source) (pkt : Packet) : Prop where
  source  : S ∈ Ss ∧ S.Sends pkt
  head    : due.head? = some (S.fileId, pkt.delivery)
  goes    : payload.net.Takes → S.datagramLen pkt.delivery ≤ rt.secondsWorth → ∃ rt',
    out = ⟨.ok true, rt', some (pkt.encode crc)⟩ ∧ Ready Ss payload rt' ∧ rt'.queue.due = due.tail ∧
      rt'.secondsWorth = rt.secondsWorth
  blocked : ¬ S.datagramLen pkt.delivery ≤ rt.secondsWorth → out = ⟨.error .blocked, rt, none⟩

theorem sendRange (h : Ready Ss payload rt) (hrate : rt.Paced) {S : Source} (hS : S ∈ Ss)
    {packet : Chunker → UInt32 → Except Error Packet} {mk : RequestedRange → WorkItem} {range : RequestedRange}
    (hp : ∀ i : UInt32, i.toNat < S.count → ∃ pkt, packet S.chunker i = .ok pkt ∧ S.Sends pkt ∧
      pkt.delivery = .chunk i.toNat)
    (hdue : ∀ r, (mk r).due = (List.range' r.start.toNat r.count.toNat).map (fun i => (S.fileId, .chunk i)))
    (hans : ∀ r : RequestedRange, 1 ≤ r.count.toNat → r.start.toNat + r.count.toNat ≤ S.count → S.Answers (mk r))
    (h1 : 1 ≤ range.count.toNat) (h2 : range.start.toNat + range.count.toNat ≤ S.count) :
    ∃ pkt, Sends Ss crc payload rt (SenderRuntime.sendRange crc payload packet mk rt S.fileId range)
      ((mk range).due ++ rt.queue.due) S pkt := by
  obtain ⟨⟨⟨rec, hrec, hname, -⟩, hfile⟩, hsize⟩ := h.sources S hS
  have hopen : Chunker.open payload.files rec.fileName S.fileId rt.currentChunkSize = .ok S.chunker := by
    rw [hname, ← hsize]
    exact S.open_eq payload.files hfile
  obtain ⟨pkt, hpk, hsends, hdel⟩ := hp range.start (by omega)
  have hlt := S.count_le
  obtain ⟨hs, hc⟩ := RequestedRange.toNat_rest h1 (by omega)
  have hrequeue : ∀ rl, ((S.fileId, pkt.delivery) : FileId × Delivery) ::
      (SenderRuntime.requeue { rt with rateLimiter := rl } mk range).queue.due = (mk range).due ++ rt.queue.due := by
    intro rl
    rw [hdel]
    exact SenderRuntime.flatMap_requeue { rt with rateLimiter := rl } hdue h1 (by omega)
  refine ⟨pkt, ⟨hS, hsends⟩, ?_, fun hnet hfit => ?_, fun hlong => ?_⟩
  · rw [← hrequeue rt.rateLimiter]
    rfl
  · rw [← hsends.length_encode crc] at hfit
    obtain ⟨rl, heq⟩ := @SenderRuntime.sendRange_taken rt crc payload packet mk S.fileId range rec hrec S.chunker hopen pkt
      hpk hnet hrate hfit
    refine ⟨_, heq, ?_, ?_, ?_⟩
    · unfold SenderRuntime.requeue
      split
      · rename_i hmore
        have hmore' : 1 < range.count.toNat := UInt32.lt_iff_toNat_lt.1 hmore
        refine h.of_queue rfl rfl rfl (fun item hi => ?_)
        rcases List.mem_cons.1 hi with rfl | hi
        · exact ⟨S, hS, hans _ (by rw [hc]; omega) (by rw [hs, hc]; omega)⟩
        · exact h.items item hi
      · exact h.of_queue rfl rfl rfl h.items
    · rw [← hrequeue rl]
      rfl
    · unfold SenderRuntime.requeue
      split <;> rfl
  · rw [← hsends.length_encode crc] at hlong
    exact @SenderRuntime.sendRange_blocked rt crc payload packet mk S.fileId range rec hrec S.chunker hopen pkt hpk hrate hlong

/-- **One `send_next`** on a queue that is not empty. -/
theorem sendNext (h : Ready Ss payload rt) (hq : rt.queue.items ≠ []) : ∃ (rt₁ : SenderRuntime) (S : Source) (pkt : Packet),
    rt₁.secondsWorth = rt.secondsWorth ∧ Sends Ss crc payload rt₁ (rt.sendNext crc payload) rt.queue.due S pkt := by
  obtain ⟨item, items, hitems⟩ := List.exists_cons_of_ne_nil hq
  obtain ⟨S, hS, hans⟩ := h.items item (by rw [hitems]; exact List.mem_cons_self)
  have hrest : Ready Ss payload (rt.taking ⟨items, rt.queue.revision + 1⟩) :=
    h.of_queue rfl rfl rfl (fun i hi => h.items i (by rw [hitems]; exact List.mem_cons_of_mem _ hi))
  have hrate := rt.paced_taking ⟨items, rt.queue.revision + 1⟩
  have hdue : rt.queue.due = item.due ++ (rt.taking ⟨items, rt.queue.revision + 1⟩).queue.due := by
    unfold PacketQueue.due
    rw [hitems, List.flatMap_cons]
    rfl
  refine ⟨rt.taking ⟨items, rt.queue.revision + 1⟩, S, ?_⟩
  rw [SenderRuntime.sendNext_cons crc payload h.state hitems, hdue]
  cases item with
  | manifest id name =>
    obtain ⟨rfl, rfl⟩ := hans
    obtain ⟨⟨-, hfile⟩, hsize⟩ := hrest.sources S hS
    have hopen := S.open_eq payload.files hfile
    rw [hsize] at hopen
    have hsends : S.Sends (S.chunker.manifestPacket S.name) := .manifest
    refine ⟨_, rfl, ⟨hS, hsends⟩, rfl, fun hnet hfit => ?_, fun hlong => ?_⟩
    · rw [← hsends.length_encode crc] at hfit
      obtain ⟨rl, heq⟩ := SenderRuntime.emit_taken hnet hrate hfit
      exact ⟨_, (SenderRuntime.sendManifest_emit hopen).trans heq, hrest.of_queue rfl rfl rfl hrest.items, rfl, rfl⟩
    · rw [← hsends.length_encode crc] at hlong
      exact (SenderRuntime.sendManifest_emit hopen).trans (SenderRuntime.emit_blocked hrate hlong)
  | data id range =>
    obtain ⟨rfl, h1, h2⟩ := hans
    obtain ⟨pkt, hsends⟩ := @sendRange Ss payload _ crc hrest hrate S hS Chunker.dataPacket (.data S.fileId) range
      S.dataPacket_sends (fun r => rfl) (fun r hr hr' => ⟨rfl, hr, hr'⟩) h1 h2
    exact ⟨pkt, rfl, hsends⟩
  | retransmit id range =>
    obtain ⟨rfl, h1, h2⟩ := hans
    obtain ⟨pkt, hsends⟩ := @sendRange Ss payload _ crc hrest hrate S hS Chunker.retransmitPacket (.retransmit S.fileId)
      range S.retransmitPacket_sends (fun r => rfl) (fun r hr hr' => ⟨rfl, hr, hr'⟩) h1 h2
    exact ⟨pkt, rfl, hsends⟩

theorem due_ne_nil (h : Ready Ss payload rt) (hq : rt.queue.items ≠ []) : rt.queue.due ≠ [] := by
  obtain ⟨_, S, pkt, -, hsends⟩ := @sendNext Ss payload rt (fun _ => 0) h hq
  intro hnil
  have hhead := hsends.head
  rw [hnil] at hhead
  cases hhead

/-- No delivery that is due is too long for the limiter. -/
def Free (Ss : List Source) (rt : SenderRuntime) : Prop :=
  ∀ S ∈ Ss, ∀ e, (S.fileId, e) ∈ rt.queue.due → S.datagramLen e ≤ rt.secondsWorth

theorem free_of_fitsIn (h : ∀ S ∈ Ss, S.FitsIn rt.secondsWorth) : Free Ss rt := fun S hS e _ => h S hS e

/-- A drain that sends all that is due, once and in order, and leaves the sender ready with nothing queued. -/
structure Drains (Ss : List Source) (crc : Bytes → UInt32) (payload : Payload) (rt : SenderRuntime)
    (out : SenderRuntime.Drained) (ps : List Packet) : Prop where
  result : out.result = .ok ()
  sent   : out.sent = ps.map (Packet.encode crc)
  sends  : ∀ p ∈ ps, ∃ S ∈ Ss, S.Sends p
  due    : ps.map (fun p => (p.fileId, p.delivery)) = rt.queue.due
  ready  : Ready Ss payload out.rt
  empty  : out.rt.queue.items = []
  worth  : out.rt.secondsWorth = rt.secondsWorth

/-- **Draining the queue sends all that is due**, if none of it is too long for the limiter. -/
theorem drain (hnet : payload.net.Takes) : ∀ (fuel : Nat) {rt : SenderRuntime}, Ready Ss payload rt →
    rt.queue.due.length ≤ fuel → Free Ss rt → ∃ ps, Drains Ss crc payload rt (rt.drain crc payload fuel) ps
  | fuel, rt, h, hfuel, hfree => by
    by_cases hq : rt.queue.items = []
    · rw [SenderRuntime.drain_nil crc payload hq]
      exact ⟨[], rfl, rfl, (fun _ hp => by cases hp), (PacketQueue.due_of_empty hq).symm, h, hq, rfl⟩
    · obtain ⟨rt₁, S, pkt, hworth, ⟨hS, hsends⟩, hhead, hgoes, -⟩ := @sendNext Ss payload rt crc h hq
      obtain ⟨rest, hdue⟩ := List.head?_eq_some_iff.1 hhead
      have hfit := hfree S hS pkt.delivery (by rw [hdue]; exact List.mem_cons_self)
      rw [← hworth] at hfit
      obtain ⟨rt', heq, hr, htail, hworth'⟩ := hgoes hnet hfit
      rw [hworth] at hworth'
      rw [hdue, List.tail_cons] at htail
      cases fuel with
      | zero => exact absurd (List.length_eq_zero_iff.1 (Nat.le_zero.1 hfuel)) (h.due_ne_nil hq)
      | succ fuel =>
        rw [hdue, List.length_cons, ← htail] at hfuel
        obtain ⟨ps, hps⟩ := drain hnet fuel hr (Nat.le_of_succ_le_succ hfuel) (fun T hT e he => by
          rw [hworth']
          exact hfree T hT e (by rw [hdue, ← htail]; exact List.mem_cons_of_mem _ he))
        unfold SenderRuntime.drain
        rw [heq]
        refine ⟨pkt :: ps, hps.result, ?_, fun p hp => ?_, ?_, hps.ready, hps.empty, hps.worth.trans hworth'⟩
        · dsimp only
          rw [hps.sent]
          rfl
        · rcases List.mem_cons.1 hp with rfl | hp
          · exact ⟨S, hS, hsends⟩
          · exact hps.sends p hp
        · rw [List.map_cons, hps.due, hdue, htail, hsends.fileId]

/-- **A delivery too long for the limiter holds the drain for ever**, once those due before it are made. -/
theorem drain_blocked (hnet : payload.net.Takes) : ∀ (fuel : Nat) {rt : SenderRuntime}, Ready Ss payload rt →
    rt.queue.due.length ≤ fuel → ¬ Free Ss rt → (rt.drain crc payload fuel).result = .error .blocked
  | fuel, rt, h, hfuel, hlong => by
    unfold Free at hlong
    push Not at hlong
    obtain ⟨T, hT, e, he, hlt⟩ := hlong
    have hq : rt.queue.items ≠ [] := by
      intro hq
      rw [PacketQueue.due_of_empty hq] at he
      cases he
    obtain ⟨rt₁, S, pkt, hworth, ⟨hS, -⟩, hhead, hgoes, hblocked⟩ := @sendNext Ss payload rt crc h hq
    obtain ⟨rest, hdue⟩ := List.head?_eq_some_iff.1 hhead
    cases fuel with
    | zero => exact absurd (List.length_eq_zero_iff.1 (Nat.le_zero.1 hfuel)) (h.due_ne_nil hq)
    | succ fuel =>
      unfold SenderRuntime.drain
      by_cases hfit : S.datagramLen pkt.delivery ≤ rt₁.secondsWorth
      · obtain ⟨rt', heq, hr, htail, hworth'⟩ := hgoes hnet hfit
        rw [hworth] at hworth' hfit
        rw [hdue, List.tail_cons] at htail
        rw [heq]
        rw [hdue, List.length_cons, ← htail] at hfuel
        refine drain_blocked hnet fuel hr (Nat.le_of_succ_le_succ hfuel) (fun hfree => ?_)
        -- what is too long is not what has just gone out
        rw [hdue, ← htail] at he
        rcases List.mem_cons.1 he with heq' | he
        · obtain ⟨hid, rfl⟩ := Prod.mk.inj heq'
          rw [(h.sources T hT).unique (h.sources S hS) hid] at hlt
          omega
        · have := hfree T hT e he
          rw [hworth'] at this
          omega
      · rw [hblocked hfit]

end Ready

end Parachuter
