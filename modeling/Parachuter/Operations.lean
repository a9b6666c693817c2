import Parachuter.Sender
/-!
# Operations — every run of the sender

A `SenderOp` is one thing that happens to the runtime: a control request, one of the main loop's two jobs, a reload of
the configuration, or the loop's time stamps.  The jobs of one turn are separate operations, since the loop lets go of
the runtime between them.  A run goes on after a send that failed and after one whose wait for the rate limiter has no
end; the daemon ends at the first and stays at the second with the runtime's lock, so what it does is a run that stops
there.  `Queued P` says that every queued item meets `P`, read at the ledger and the chunk size in force; the lemmas
named after an operation say what it asks of the items it pushes, so that an invariant of the queue needs only these.
-/
namespace Parachuter

open Blob (Bytes)

inductive SenderOp
  | submit (metadata : Text → Except IoError FileMeta) (cwd : Option Text) (path : Text) (interrupt : Bool)
      (utc : DateTime)
  | enqueue (fileId : FileId) (start : Int32) (count : UInt32) (interrupt : Bool) (utc : DateTime)
  | resendName (fileId : FileId)
  | scanForWork (view : Nat → Text → DirView) (utc : DateTime)
  | applyOverride (o : LinkOverride)
  | setState (new : SenderState)
  | flush
  | sendNext (payload : Payload)
  | reload (cfg : LiveConfig)
  | stamp (lastRecheck lastStatusDump : Int)

namespace SenderOp

/-- The runtime an operation leaves, whatever it answers. -/
def apply (crc : Bytes → UInt32) (rt : SenderRuntime) : SenderOp → SenderRuntime
  | .submit metadata cwd path interrupt utc      => (rt.submit metadata cwd path interrupt utc).2
  | .enqueue fileId start count interrupt utc    => (rt.enqueue fileId start count interrupt utc).2
  | .resendName fileId                           => (rt.resendName fileId).2
  | .scanForWork view utc                        => (rt.scanForWork view utc).2
  | .applyOverride o                             => (rt.applyOverride o).2
  | .setState new                                => rt.setState new
  | .flush                                       => rt.flush
  | .sendNext payload                            => (rt.sendNext crc payload).rt
  | .reload cfg                                  => { rt with cfg := cfg }
  | .stamp lastRecheck lastStatusDump            =>
    { rt with lastRecheck := lastRecheck, lastStatusDump := lastStatusDump }

def run (crc : Bytes → UInt32) (rt : SenderRuntime) (ops : List SenderOp) : SenderRuntime := ops.foldl (apply crc) rt

/-- The requests, scans, flushes and sends. -/
def OnQueue : SenderOp → Prop
  | .submit .. | .enqueue .. | .resendName .. | .scanForWork .. | .flush | .sendNext .. => True
  | .applyOverride .. | .setState .. | .reload .. | .stamp ..                           => False

end SenderOp

/-- A condition on a work item, read at a ledger and a chunk size. -/
abbrev ItemCond := Ledger → Nat → WorkItem → Prop

/-- A condition that a growing ledger keeps, and that what is left of a range inherits. -/
structure ItemCond.Stable (P : ItemCond) : Prop where
  mono       : ∀ {l l' : Ledger} {c : Nat} {item : WorkItem}, l.Extends l' → P l c item → P l' c item
  data       : ∀ {l : Ledger} {c : Nat} {id : FileId} {r : RequestedRange}, 1 < r.count → P l c (.data id r) →
    P l c (.data id r.rest)
  retransmit : ∀ {l : Ledger} {c : Nat} {id : FileId} {r : RequestedRange}, 1 < r.count → P l c (.retransmit id r) →
    P l c (.retransmit id r.rest)

namespace SenderRuntime

/-- Every queued item meets the condition. -/
def Queued (P : ItemCond) (rt : SenderRuntime) : Prop := ∀ item ∈ rt.queue.items, P rt.ledger rt.currentChunkSize item

/-- The chunk count of a file of the given size at the chunk size in force. -/
def totalFor (rt : SenderRuntime) (size : UInt64) : UInt32 := chunksForSize size.toNat (rt.currentChunkSize - HEADER_LEN)

variable {P : ItemCond} {rt : SenderRuntime}

theorem Queued.withLedger (hP : P.Stable) (h : Queued P rt) {l : Ledger} (hl : rt.ledger.Extends l) :
    Queued P { rt with ledger := l } := fun item hi => hP.mono hl (h item hi)

theorem Queued.pushFront (h : Queued P rt) {item : WorkItem} (hi : P rt.ledger rt.currentChunkSize item) :
    Queued P { rt with queue := rt.queue.pushFront item } := by
  intro i hm
  rcases List.mem_cons.1 hm with rfl | hm
  · exact hi
  · exact h i hm

theorem Queued.pushBack (h : Queued P rt) {item : WorkItem} (hi : P rt.ledger rt.currentChunkSize item) :
    Queued P { rt with queue := rt.queue.pushBack item } := by
  intro i hm
  rcases List.mem_append.1 hm with hm | hm
  · exact h i hm
  · rw [List.mem_singleton.1 hm]
    exact hi

theorem Queued.pushFullFile (hP : P.Stable) (h : Queued P rt) {id : FileId} {name : Text} {total : UInt32}
    (interrupt : Bool) (utc : DateTime) (hm : P rt.ledger rt.currentChunkSize (.manifest id name))
    (hd : P rt.ledger rt.currentChunkSize (.data id ⟨0, total⟩)) :
    Queued P (rt.pushFullFile id name total interrupt utc) := by
  have hl := rt.ledger.extends_markQueued id utc
  have h' := h.withLedger hP hl
  unfold SenderRuntime.pushFullFile
  cases interrupt with
  | true => exact (h'.pushFront (hP.mono hl hd)).pushFront (hP.mono hl hm)
  | false => exact (h'.pushBack (hP.mono hl hm)).pushBack (hP.mono hl hd)

theorem Queued.enqueue (hP : P.Stable) (h : Queued P rt) {id : FileId} (start : Int32) (count : UInt32)
    (interrupt : Bool) (utc : DateTime)
    (hwhole : start < 0 → ∀ rec, rt.ledger.get id = some rec →
      P rt.ledger rt.currentChunkSize (.manifest rec.fileId rec.fileName) ∧
      P rt.ledger rt.currentChunkSize (.data rec.fileId ⟨0, rt.totalFor rec.fileSize⟩))
    (hpart : ∀ rec, rt.ledger.get id = some rec → ∀ s : UInt32, s < rt.totalFor rec.fileSize →
      P rt.ledger rt.currentChunkSize
        (.retransmit rec.fileId ⟨s, min (max count 1) (rt.totalFor rec.fileSize - s)⟩)) :
    Queued P (rt.enqueue id start count interrupt utc).2 := by
  unfold SenderRuntime.enqueue
  split
  · exact h
  rename_i rec hrec
  dsimp only
  split
  · rename_i hneg
    obtain ⟨hm, hd⟩ := hwhole hneg rec hrec
    exact h.pushFullFile hP interrupt utc hm hd
  · split
    · exact h
    · rename_i hlt
      have hitem := hpart rec hrec start.toUInt32 (UInt32.not_le.1 hlt)
      cases interrupt with
      | true => exact h.pushFront hitem
      | false => exact h.pushBack hitem

theorem Queued.resendName (h : Queued P rt) {id : FileId} (hm : ∀ rec, rt.ledger.get id = some rec →
    P rt.ledger rt.currentChunkSize (.manifest rec.fileId rec.fileName)) : Queued P (rt.resendName id).2 := by
  unfold SenderRuntime.resendName
  split
  · exact h
  · rename_i rec hrec
    exact h.pushFront (hm rec hrec)

/-- Registering a file: what it pushes is read at the ledger that has its row. -/
theorem Queued.registerAndPush (hP : P.Stable) (h : Queued P rt) {name : Text} {size : UInt64} {created : DateTime}
    (interrupt : Bool) (utc : DateTime)
    (hpush : ∀ (l : Ledger) (id : FileId) (r : FileRecord), l.get id = some r → r.fileName = name →
      P l rt.currentChunkSize (.manifest id name) ∧ P l rt.currentChunkSize (.data id ⟨0, rt.totalFor size⟩)) :
    Queued P (rt.registerAndPush name size created interrupt utc).2 := by
  unfold SenderRuntime.registerAndPush
  dsimp only
  split
  · exact h
  · rename_i id l hl
    obtain ⟨hext, ⟨r, hr, hname⟩, -⟩ := Ledger.upsertFile_ok hl
    obtain ⟨hm, hd⟩ := hpush l id r hr hname
    exact (h.withLedger hP hext).pushFullFile hP interrupt utc hm hd

theorem Queued.submit (hP : P.Stable) (h : Queued P rt) (metadata : Text → Except IoError FileMeta)
    (cwd : Option Text) (path : Text) (interrupt : Bool) (utc : DateTime)
    (hpush : ∀ info, metadata path = .ok info → info.isFile = true →
      ∀ (l : Ledger) (id : FileId) (r : FileRecord), l.get id = some r → r.fileName = absolute cwd path →
        P l rt.currentChunkSize (.manifest id (absolute cwd path)) ∧
        P l rt.currentChunkSize (.data id ⟨0, rt.totalFor info.len⟩)) :
    Queued P (rt.submit metadata cwd path interrupt utc).2 := by
  unfold SenderRuntime.submit
  split
  · exact h
  · exact h
  · rename_i info hinfo
    split
    · exact h
    · rename_i hfile
      exact h.registerAndPush hP interrupt utc (hpush info hinfo (Bool.eq_true_of_not_eq_false hfile))

theorem Queued.scanForWork (hP : P.Stable) (h : Queued P rt) (view : Nat → Text → DirView) (utc : DateTime)
    (hpush : ∀ c, Scanner.nextCandidate view rt.scanDirs rt.cfg.current.sender.includeExtensions
        rt.cfg.current.sender.skipExtensions rt.ledger = .ok (some c) →
      ∀ (l : Ledger) (id : FileId) (r : FileRecord), l.get id = some r → r.fileName = c.path →
        P l rt.currentChunkSize (.manifest id c.path) ∧ P l rt.currentChunkSize (.data id ⟨0, rt.totalFor c.size⟩)) :
    Queued P (rt.scanForWork view utc).2 := by
  unfold SenderRuntime.scanForWork
  dsimp only
  split
  · exact h
  · exact h
  · rename_i c hc
    have h' := @Queued.registerAndPush P rt hP h c.path c.size c.createdAt false utc (hpush c hc)
    split <;> (rename_i heq; rw [heq] at h'; exact h')

theorem Queued.clear (rt : SenderRuntime) : Queued P { rt with queue := rt.queue.clear } := by
  intro item hi
  rw [PacketQueue.clear_items] at hi
  cases hi

theorem Queued.setState (h : Queued P rt) (new : SenderState) : Queued P (rt.setState new) := by
  cases new with
  | auto => exact h
  | manual => exact Queued.clear rt
  | paused => exact Queued.clear rt
  | debug => exact Queued.clear rt

theorem Queued.applyOverride (h : Queued P rt) (o : LinkOverride)
    (hsize : ∀ c, o.chunkSize = some c → o.linkKnown rt.cfg.current = true → o.sizeOk = true →
      ∀ item ∈ rt.queue.items, P rt.ledger c item) : Queued P (rt.applyOverride o).2 := by
  unfold SenderRuntime.applyOverride
  split
  · exact h
  rename_i hlink
  dsimp only
  split
  · exact h
  rename_i hok
  intro item hi
  simp only [SenderRuntime.currentChunkSize]
  cases hc : o.chunkSize with
  | none => exact h item hi
  | some c => exact hsize c hc (Bool.eq_true_of_not_eq_false hlink) (Bool.eq_true_of_not_eq_false hok) item hi

/-! ## Sending -/

/-- One second's worth of traffic at the rate in force, in bytes. -/
def secondsWorth (rt : SenderRuntime) : Nat := 125 * rt.currentLink.2.2.2.toNat

/-- The bucket is at the rate in force. -/
def Paced (rt : SenderRuntime) : Prop := rt.rateLimiter.AtRate rt.currentLink.2.2.2

theorem paced_taking (rt : SenderRuntime) (q : PacketQueue) : (rt.taking q).Paced := RateLimiter.atRate_setKbps _ _

theorem emit_rt (rt : SenderRuntime) (payload : Payload) (bytes : Bytes) :
    ∃ rl, (rt.emit payload bytes).rt = { rt with rateLimiter := rl } := by
  unfold emit
  dsimp only
  split
  · exact ⟨rt.rateLimiter, rfl⟩
  · rename_i rl _
    refine ⟨rl, ?_⟩
    split <;> rfl

theorem emit_datagram {payload : Payload} {bytes b : Bytes} (h : b ∈ (rt.emit payload bytes).datagram) : b = bytes := by
  unfold emit at h
  dsimp only at h
  split at h
  · cases h
  · split at h
    · cases h
    · cases h
      rfl

theorem emit_sent {payload : Payload} {bytes : Bytes} (h : (rt.emit payload bytes).result = .ok true) :
    ∃ rl, rt.emit payload bytes = ⟨.ok true, { rt with rateLimiter := rl }, some bytes⟩ := by
  unfold emit at h ⊢
  dsimp only at h ⊢
  split at h
  · cases h
  · rename_i rl _
    split at h
    · cases h
    · exact ⟨rl, rfl⟩

/-- **The limiter's wait ends** exactly for a datagram of one second's worth of traffic. -/
theorem acquired_encode_iff (hrate : rt.Paced) (payload : Payload) (pkt : Packet) (crc : Bytes → UInt32) :
    (∃ rl, rt.rateLimiter.acquired (pkt.encode crc).length (payload.delays rt.rateLimiter) = some rl) ↔
      (pkt.encode crc).length ≤ rt.secondsWorth := by
  refine hrate.acquired_isSome_iff (payload.delays_nonneg _) ?_
  rw [length_encode, HEADER_LEN]
  omega

theorem emit_taken {payload : Payload} (hnet : payload.net.Takes) (hrate : rt.Paced) {pkt : Packet}
    {crc : Bytes → UInt32} (hfit : (pkt.encode crc).length ≤ rt.secondsWorth) :
    ∃ rl, rt.emit payload (pkt.encode crc) = ⟨.ok true, { rt with rateLimiter := rl }, some (pkt.encode crc)⟩ := by
  obtain ⟨rl, hrl⟩ := (acquired_encode_iff hrate payload pkt crc).2 hfit
  refine ⟨rl, ?_⟩
  unfold emit
  dsimp only
  rw [hrl]
  dsimp only
  rw [hnet]

theorem emit_blocked {payload : Payload} (hrate : rt.Paced) {pkt : Packet} {crc : Bytes → UInt32}
    (hlong : ¬ (pkt.encode crc).length ≤ rt.secondsWorth) :
    rt.emit payload (pkt.encode crc) = ⟨.error .blocked, rt, none⟩ := by
  have hnone : rt.rateLimiter.acquired (pkt.encode crc).length (payload.delays rt.rateLimiter) = none :=
    Option.eq_none_iff_forall_ne_some.2 (fun rl hrl => hlong ((acquired_encode_iff hrate payload pkt crc).1 ⟨rl, hrl⟩))
  unfold emit
  dsimp only
  rw [hnone]

theorem sendManifest_emit {crc : Bytes → UInt32} {payload : Payload} {id : FileId} {name : Text} {chunker : Chunker}
    (hc : Chunker.open payload.files name id rt.currentChunkSize = .ok chunker) :
    sendManifest crc payload rt id name = rt.emit payload ((chunker.manifestPacket name).encode crc) := by
  unfold sendManifest
  rw [hc]

/-- The runtime after a chunk of a range has gone out: what is left of the range is at the front. -/
def requeue (rt : SenderRuntime) (mk : RequestedRange → WorkItem) (range : RequestedRange) : SenderRuntime :=
  if 1 < range.count then { rt with queue := rt.queue.pushFront (mk range.rest) } else rt

/-- Whatever each chunk of a range stands for, what is left of the range stands for the rest. -/
theorem flatMap_requeue {β : Type} (rt : SenderRuntime) {f : WorkItem → List β} {mk : RequestedRange → WorkItem}
    {g : Nat → β} (hmk : ∀ r, f (mk r) = (List.range' r.start.toNat r.count.toNat).map g) {range : RequestedRange}
    (h1 : 1 ≤ range.count.toNat) (h2 : range.start.toNat + range.count.toNat < 2 ^ 32) :
    g range.start.toNat :: (requeue rt mk range).queue.items.flatMap f = f (mk range) ++ rt.queue.items.flatMap f := by
  obtain ⟨n, hn⟩ := Nat.exists_eq_add_one_of_ne_zero (Nat.ne_of_gt h1)
  obtain ⟨hs, hc⟩ := RequestedRange.toNat_rest h1 h2
  rw [hn, Nat.add_sub_cancel] at hc
  rw [hmk, hn, List.range'_succ, List.map_cons, List.cons_append, List.cons.injEq]
  refine ⟨rfl, ?_⟩
  unfold requeue
  split
  · rw [PacketQueue.pushFront_items, List.flatMap_cons, hmk, hs, hc]
  · rename_i hlast
    have hz := mt UInt32.lt_iff_toNat_lt.2 hlast
    rw [UInt32.toNat_one, hn] at hz
    obtain rfl : n = 0 := by omega
    rfl

section

variable {crc : Bytes → UInt32} {payload : Payload} {packet : Chunker → UInt32 → Except Error Packet}
  {mk : RequestedRange → WorkItem} {id : FileId} {range : RequestedRange} {rec : FileRecord}
  (hrec : rt.ledger.get id = some rec) {chunker : Chunker}
  (hc : Chunker.open payload.files rec.fileName id rt.currentChunkSize = .ok chunker) {pkt : Packet}
  (hp : packet chunker range.start = .ok pkt)

include hrec hc hp

theorem sendRange_sends (hemit : (rt.emit payload (pkt.encode crc)).result = .ok true) :
    ∃ rl, sendRange crc payload packet mk rt id range =
      ⟨.ok true, requeue { rt with rateLimiter := rl } mk range, some (pkt.encode crc)⟩ := by
  obtain ⟨rl, heq⟩ := emit_sent hemit
  refine ⟨rl, ?_⟩
  unfold sendRange
  rw [hrec]
  dsimp only
  rw [hc]
  dsimp only
  rw [hp]
  dsimp only
  rw [heq]
  dsimp only
  unfold requeue
  split
  · rfl
  · rfl

theorem sendRange_taken (hnet : payload.net.Takes) (hrate : rt.Paced)
    (hfit : (pkt.encode crc).length ≤ rt.secondsWorth) : ∃ rl, sendRange crc payload packet mk rt id range =
      ⟨.ok true, requeue { rt with rateLimiter := rl } mk range, some (pkt.encode crc)⟩ := by
  obtain ⟨rl, heq⟩ := emit_taken hnet hrate hfit
  exact sendRange_sends hrec hc hp (by rw [heq])

theorem sendRange_blocked (hrate : rt.Paced) (hlong : ¬ (pkt.encode crc).length ≤ rt.secondsWorth) :
    sendRange crc payload packet mk rt id range = ⟨.error .blocked, rt, none⟩ := by
  unfold sendRange
  rw [hrec]
  dsimp only
  rw [hc]
  dsimp only
  rw [hp]
  dsimp only
  rw [emit_blocked hrate hlong]

end

theorem Queued.emit (h : Queued P rt) (payload : Payload) (bytes : Bytes) : Queued P (rt.emit payload bytes).rt := by
  obtain ⟨rl, heq⟩ := emit_rt rt payload bytes
  rw [heq]
  exact h

theorem Queued.sendRange (hP : P.Stable) (h : Queued P rt) (crc : Bytes → UInt32) (payload : Payload)
    {packet : Chunker → UInt32 → Except Error Packet} {item : RequestedRange → WorkItem} {id : FileId}
    {range : RequestedRange}
    (hrest : 1 < range.count → P rt.ledger rt.currentChunkSize (item range.rest)) :
    Queued P (SenderRuntime.sendRange crc payload packet item rt id range).rt := by
  unfold SenderRuntime.sendRange
  split
  · exact h
  rename_i rec hrec
  split
  · exact h.withLedger hP (rt.ledger.extends_markGone _)
  · exact h
  · split
    · exact h
    · rename_i pkt hpkt
      have hout := h.emit payload (pkt.encode crc)
      dsimp only
      split
      · exact hout
      · split
        · rename_i hcount
          refine hout.pushFront ?_
          obtain ⟨rl, heq⟩ := emit_rt rt payload (pkt.encode crc)
          rw [heq]
          exact hrest hcount
        · exact hout

theorem sendNext_paused (crc : Bytes → UInt32) (payload : Payload) (h : rt.state = .paused) :
    rt.sendNext crc payload = ⟨.ok false, rt, none⟩ := by
  unfold sendNext
  rw [if_pos h]

theorem sendNext_nil (crc : Bytes → UInt32) (payload : Payload) (h : rt.queue.items = []) :
    rt.sendNext crc payload = ⟨.ok false, rt, none⟩ := by
  unfold sendNext PacketQueue.popFront
  rw [h]
  split
  · rfl
  · rfl

theorem sendNext_cons (crc : Bytes → UInt32) (payload : Payload) (hs : rt.state ≠ .paused) {item : WorkItem}
    {items : List WorkItem} (h : rt.queue.items = item :: items) :
    rt.sendNext crc payload = sendItem crc payload (rt.taking ⟨items, rt.queue.revision + 1⟩) item := by
  unfold sendNext PacketQueue.popFront
  rw [if_neg hs, h]

/-- **The three ways of `send_next`**: the sender is paused, there is nothing to send, or an item is taken. -/
theorem sendNext_cases (crc : Bytes → UInt32) (payload : Payload) (rt : SenderRuntime) :
    rt.sendNext crc payload = ⟨.ok false, rt, none⟩ ∨ ∃ item items, rt.state ≠ .paused ∧
      rt.queue.items = item :: items ∧
      rt.sendNext crc payload = sendItem crc payload (rt.taking ⟨items, rt.queue.revision + 1⟩) item := by
  by_cases hs : rt.state = .paused
  · exact .inl (sendNext_paused crc payload hs)
  · cases hq : rt.queue.items with
    | nil => exact .inl (sendNext_nil crc payload hq)
    | cons item items => exact .inr ⟨item, items, hs, rfl, sendNext_cons crc payload hs hq⟩

theorem Queued.sendNext (hP : P.Stable) (h : Queued P rt) (crc : Bytes → UInt32) (payload : Payload) :
    Queued P (rt.sendNext crc payload).rt := by
  rcases sendNext_cases crc payload rt with heq | ⟨item, items, -, hq, heq⟩
  · rw [heq]
    exact h
  · have hitem := h item (by rw [hq]; exact List.mem_cons_self)
    have hrest : Queued P (rt.taking ⟨items, rt.queue.revision + 1⟩) :=
      fun i hi => h i (by rw [hq]; exact List.mem_cons_of_mem _ hi)
    rw [heq]
    cases item with
    | manifest id name =>
      simp only [sendItem, sendManifest]
      split
      · exact hrest
      · exact hrest.emit payload _
    | data id range => exact hrest.sendRange hP crc payload (fun hc => hP.data hc hitem)
    | retransmit id range => exact hrest.sendRange hP crc payload (fun hc => hP.retransmit hc hitem)

/-! ## What an operation leaves alone -/

/-- A send may mark a file gone; all but the ledger, the queue and the bucket is as it was. -/
theorem sendRange_leaves (crc : Bytes → UInt32) (payload : Payload)
    (packet : Chunker → UInt32 → Except Error Packet) (item : RequestedRange → WorkItem) (rt : SenderRuntime)
    (id : FileId) (range : RequestedRange) : ∃ ledger queue rateLimiter,
      (sendRange crc payload packet item rt id range).rt =
        { rt with ledger := ledger, queue := queue, rateLimiter := rateLimiter } ∧
      (ledger = rt.ledger ∨ ∃ name, ledger = rt.ledger.markGone name) := by
  unfold sendRange
  split
  · exact ⟨_, _, _, rfl, .inl rfl⟩
  split
  · exact ⟨_, _, _, rfl, .inr ⟨_, rfl⟩⟩
  · exact ⟨_, _, _, rfl, .inl rfl⟩
  split
  · exact ⟨_, _, _, rfl, .inl rfl⟩
  rename_i pkt _
  dsimp only
  obtain ⟨rl, heq⟩ := emit_rt rt payload (pkt.encode crc)
  rw [heq]
  split
  · exact ⟨_, _, _, heq, .inl rfl⟩
  split
  · exact ⟨_, _, _, rfl, .inl rfl⟩
  · exact ⟨_, _, _, heq, .inl rfl⟩

theorem sendNext_leaves (crc : Bytes → UInt32) (payload : Payload) (rt : SenderRuntime) : ∃ ledger queue rateLimiter,
    (rt.sendNext crc payload).rt = { rt with ledger := ledger, queue := queue, rateLimiter := rateLimiter } ∧
      (ledger = rt.ledger ∨ ∃ name, ledger = rt.ledger.markGone name) := by
  rcases sendNext_cases crc payload rt with heq | ⟨item, items, -, -, heq⟩
  · rw [heq]
    exact ⟨_, _, _, rfl, .inl rfl⟩
  · rw [heq]
    cases item with
    | manifest id name =>
      simp only [sendItem, sendManifest]
      split
      · exact ⟨_, _, _, rfl, .inl rfl⟩
      · obtain ⟨rl, hrl⟩ := emit_rt (rt.taking ⟨items, rt.queue.revision + 1⟩) payload _
        rw [hrl]
        exact ⟨_, _, _, rfl, .inl rfl⟩
    | data id range => exact sendRange_leaves crc payload _ _ (rt.taking _) id range
    | retransmit id range => exact sendRange_leaves crc payload _ _ (rt.taking _) id range

theorem registerAndPush_leaves (rt : SenderRuntime) (name : Text) (len : UInt64) (created : DateTime)
    (interrupt : Bool) (utc : DateTime) : ∃ ledger queue,
      (rt.registerAndPush name len created interrupt utc).2 = { rt with ledger := ledger, queue := queue } := by
  unfold registerAndPush
  dsimp only
  split
  · exact ⟨_, _, rfl⟩
  · exact ⟨_, _, rfl⟩

/-- **The operations on the queue leave the settings, the state and the clocks alone.** -/
theorem apply_leaves (crc : Bytes → UInt32) (rt : SenderRuntime) {op : SenderOp} (h : op.OnQueue) :
    ∃ ledger queue rateLimiter,
      op.apply crc rt = { rt with ledger := ledger, queue := queue, rateLimiter := rateLimiter } := by
  cases op with
  | submit metadata cwd path interrupt utc =>
    simp only [SenderOp.apply, submit]
    split
    · exact ⟨_, _, _, rfl⟩
    · exact ⟨_, _, _, rfl⟩
    · split
      · exact ⟨_, _, _, rfl⟩
      · obtain ⟨ledger, queue, heq⟩ := rt.registerAndPush_leaves _ _ _ _ _
        exact ⟨ledger, queue, _, heq⟩
  | enqueue fileId start count interrupt utc =>
    simp only [SenderOp.apply, enqueue]
    split
    · exact ⟨_, _, _, rfl⟩
    · split
      · exact ⟨_, _, _, rfl⟩
      · split
        · exact ⟨_, _, _, rfl⟩
        · exact ⟨_, _, _, rfl⟩
  | resendName fileId =>
    simp only [SenderOp.apply, resendName]
    split
    · exact ⟨_, _, _, rfl⟩
    · exact ⟨_, _, _, rfl⟩
  | scanForWork view utc =>
    simp only [SenderOp.apply, scanForWork]
    split
    · exact ⟨_, _, _, rfl⟩
    · exact ⟨_, _, _, rfl⟩
    · rename_i c _
      obtain ⟨ledger, queue, hreg⟩ := rt.registerAndPush_leaves c.path c.size c.createdAt false utc
      split <;> (rename_i heq; rw [heq] at hreg; exact ⟨ledger, queue, _, hreg⟩)
  | flush => exact ⟨_, _, _, rfl⟩
  | sendNext payload =>
    obtain ⟨ledger, queue, rateLimiter, heq, -⟩ := sendNext_leaves crc payload rt
    exact ⟨ledger, queue, rateLimiter, heq⟩
  | applyOverride o => exact h.elim
  | setState new => exact h.elim
  | reload cfg => exact h.elim
  | stamp lastRecheck lastStatusDump => exact h.elim

end SenderRuntime

/-! ## One file of forty bytes -/

namespace Forty

def files (name : Text) : Option Bytes := if name = "/a".toList then some (List.replicate 40 0) else none

def submit : SenderOp := .submit (fun _ => .ok ⟨true, 40, 0⟩) none "/a".toList false 0

def setChunkSize (c : Nat) : SenderOp := .applyOverride ⟨none, some c, none, none, none⟩

def send : SenderOp := .sendNext (.ideal files)

def start : SenderRuntime := .new .default .empty 0 0

theorem nameOk : normalComponents "/a".toList ≠ [] := by decide

theorem nameFits : (Utf8.encode "/a".toList).length < 2 ^ 32 := by decide

/-- The file, cut at chunk size `c`. -/
def source (c : Nat) (hc : MIN_CHUNK_SIZE ≤ c ∧ c ≤ MAX_CHUNK_SIZE) : Source where
  fileId := 1
  name := "/a".toList
  bytes := List.replicate 40 0
  chunkSize := c
  sizeOk := hc
  nameOk := nameOk
  nameFits := nameFits
  countFits := Source.countFits_forty rfl hc

theorem pathsShort : (Payload.ideal files).PathsShort := by
  intro path b h
  simp only [Payload.ideal, files] at h
  split at h
  · rename_i hp
    rw [hp]
    decide
  · cases h

end Forty

end Parachuter
